import FluxCache.Store.TTLInterleaving

/-!
# Deadlines under interleaved calls

`SetWithTTL` records the deadline of its key first and writes the value in a later step. A removal
of the key, by `Del`, by a read or a sweep that finds it expired or by an eviction, takes the
deadline out first and deletes the value in a later step. If both steps of a removal fall between
the two steps of `SetWithTTL`, the value is written after its deadline has gone, and stays for ever.

What a schedule does to one key leaves marks (`KeyMark`). The key has a deadline exactly if no mark
of a clearing comes after the mark of the deadline, and it holds the value exactly if no mark of a
deletion comes after the mark of the write (`Marked`). So the value that is left has a deadline
exactly if, whenever a removal has cleared the deadline, some removal deletes the value after it was
written.
-/

set_option autoImplicit false
set_option relaxedAutoImplicit false

namespace FluxCache.Store

open FluxCache.Foundation

/-! ### Marks -/

/-- What happens to a key: its deadline is recorded by `SetWithTTL`, its value is written, a removal
takes its deadline out, a removal deletes its value. -/
inductive KeyMark
  | deadline
  | written
  | cleared
  | deleted
  deriving DecidableEq

/-- One mark comes after another. -/
def Follows (first second : KeyMark) : List KeyMark → Prop
  | [] => False
  | mark :: marks => mark = first ∧ second ∈ marks ∨ Follows first second marks

instance decidableFollows (first second : KeyMark) :
    (marks : List KeyMark) → Decidable (Follows first second marks)
  | [] => instDecidableFalse
  | mark :: marks =>
    have := decidableFollows first second marks
    inferInstanceAs (Decidable (mark = first ∧ second ∈ marks ∨ Follows first second marks))

section Follows

variable {first second last : KeyMark} {marks : List KeyMark}

theorem Follows.mem (h : Follows first second marks) : first ∈ marks := by
  induction marks with
  | nil => exact absurd h id
  | cons mark marks ih =>
    rcases h with ⟨rfl, -⟩ | hrest
    · exact List.mem_cons_self
    · exact List.mem_cons_of_mem mark (ih hrest)

/-- A mark at the end comes after all marks before it. -/
theorem follows_concat_iff :
    Follows first second (marks ++ [last]) ↔
      Follows first second marks ∨ first ∈ marks ∧ second = last := by
  induction marks with
  | nil => simp [Follows]
  | cons mark marks ih =>
    rw [List.cons_append, Follows, Follows, ih, List.mem_append, List.mem_singleton,
      List.mem_cons, @eq_comm _ first mark]
    tauto

end Follows

/-- The marks that a step leaves at a key. -/
def Phase.marks (env : Environment) (k : GoString) (t : TTLStore MapStore) : Phase → List KeyMark
  | setDeadline key _ _ => if key = k then [.deadline] else []
  | writeInner w => if w.key = k then [.written] else []
  | removeKey key _ => if key = k then [.cleared] else []
  | collectExpired => if (t.expiredKeys env).contains k then [.cleared] else []
  | delInner key _ _ => if key = k then [.deleted] else []
  | _ => []

/-- The marks that an event leaves at a key. -/
def keyMarks {ι : Type} (env : Environment) (k : GoString)
    (c : Config ι (TTLStore MapStore) Phase) : Event ι Call → List KeyMark
  | .enter _ _ => []
  | .advance i => (c.threads i).marks env k c.shared

/-! ### Steps of calls that do not write the key -/

/-- A phase of a call that neither writes a key nor gives it a deadline. -/
def Phase.Spares (k : GoString) : Phase → Prop
  | setDeadline key _ _ => key ≠ k
  | writeInner w => w.key ≠ k
  | lookKey key _ => key ≠ k
  | expire key _ => key ≠ k
  | _ => True

/-- A call that neither writes a key nor gives it a deadline. -/
def Call.Spares (k : GoString) : Call → Prop
  | write w => w.key ≠ k
  | setWithTTL key _ _ => key ≠ k
  | expire key _ => key ≠ k
  | _ => True

theorem Call.Spares.enter {k : GoString} {call : Call} (h : call.Spares k) :
    (Phase.enter call).Spares k := by
  cases call with
  | write w => exact h
  | setWithTTL key value ttl => exact h
  | expire key ttl => exact h
  | _ => trivial

section Steps

variable {k v : GoString} {t t' : TTLStore MapStore} {marks new : List KeyMark}

/-- What a step of a call that does not write the key can do to it. -/
inductive Effect (k : GoString) (t t' : TTLStore MapStore) : List KeyMark → Prop
  | nothing (deadline : k ∈ t'.expireAt ↔ k ∈ t.expireAt)
      (value : t'.inner.strings.lookup k = t.inner.strings.lookup k) : Effect k t t' []
  | cleared (deadline : k ∉ t'.expireAt)
      (value : t'.inner.strings.lookup k = t.inner.strings.lookup k) : Effect k t t' [.cleared]
  | deleted (deadline : k ∈ t'.expireAt ↔ k ∈ t.expireAt)
      (value : t'.inner.strings.lookup k = none) : Effect k t t' [.deleted]

theorem effect_of_eq (hexpireAt : t'.expireAt = t.expireAt) (hinner : t'.inner = t.inner) :
    Effect k t t' [] :=
  .nothing (by rw [hexpireAt]) (by rw [hinner])

theorem effect_setDeadline (env : Environment) (t : TTLStore MapStore) {key : GoString}
    (hkey : key ≠ k) (ttl : Duration) : Effect k t (t.setDeadline env key ttl) [] := by
  refine .nothing ?_ rfl
  show k ∈ t.expireAt.insert key _ ↔ _
  rw [Finmap.mem_insert, or_iff_right (Ne.symm hkey)]

theorem effect_writeInner (t : TTLStore MapStore) {w : Write} (hkey : w.key ≠ k) :
    Effect k t (t.writeInner w) [] := by
  refine .nothing Iff.rfl ?_
  cases w with
  | set key value => exact Finmap.lookup_insert_of_ne _ (Ne.symm hkey)
  | hset hash key value => rfl

theorem effect_removeKey (t : TTLStore MapStore) (key : GoString) :
    Effect k t (t.removeKey key) (if key = k then [.cleared] else []) := by
  by_cases hkey : key = k
  · rw [if_pos hkey, hkey]
    exact .cleared (fun hmem ↦ (Finmap.mem_erase.mp hmem).1 rfl) rfl
  · rw [if_neg hkey]
    refine .nothing ?_ rfl
    exact Finmap.mem_erase.trans (and_iff_right (Ne.symm hkey))

theorem effect_delInner (t : TTLStore MapStore) (key : GoString) :
    Effect k t (t.delInner key) (if key = k then [.deleted] else []) := by
  by_cases hkey : key = k
  · rw [if_pos hkey, hkey]
    exact .deleted Iff.rfl (Finmap.lookup_erase k t.inner.strings)
  · rw [if_neg hkey]
    exact .nothing Iff.rfl (Finmap.lookup_erase_ne (Ne.symm hkey))

theorem effect_collectExpired (env : Environment) (t : TTLStore MapStore) :
    Effect k t (t.collectExpired env).2
      (if (t.expiredKeys env).contains k then [.cleared] else []) := by
  have hdeadline := (TTLStore.keysRemoved_collectExpired env t).deadlines k
  have hinner := (TTLStore.keysRemoved_collectExpired env t).inner
  by_cases hk : k ∈ t.expiredKeys env
  · rw [if_pos (List.contains_iff_mem.mpr hk)]
    exact .cleared (fun hmem ↦ (hdeadline.mp hmem).2 hk) (by rw [hinner])
  · rw [if_neg fun h ↦ hk (List.contains_iff_mem.mp h)]
    exact .nothing (hdeadline.trans (and_iff_left hk)) (by rw [hinner])

/-- What one step of a call that does not write the key does to it. -/
theorem Phase.Spares.advance (env : Environment) (t : TTLStore MapStore) {p : Phase}
    (hp : p.Spares k) :
    (p.advance env t).2.Spares k ∧ Effect k t (p.advance env t).1 (p.marks env k t) := by
  have hbranch {b : Prop} [Decidable b] {first second : Phase} (hfirst : first.Spares k)
      (hsecond : second.Spares k) : (if b then first else second).Spares k := by
    by_cases hb : b
    · rwa [if_pos hb]
    · rwa [if_neg hb]
  have hnext (reply : Reply) (keys : List GoString) : (Phase.dropNext reply keys).Spares k := by
    cases keys <;> trivial
  cases p with
  | setDeadline key value ttl =>
    refine ⟨hp, ?_⟩
    rw [Phase.marks, if_neg hp]
    exact effect_setDeadline env t hp ttl
  | writeInner w =>
    refine ⟨trivial, ?_⟩
    rw [Phase.marks, if_neg hp]
    exact effect_writeInner t hp
  | removeKey key reply => exact ⟨trivial, effect_removeKey t key⟩
  | delInner key rest reply => exact ⟨hnext reply rest, effect_delInner t key⟩
  | collectExpired => exact ⟨hnext _ _, effect_collectExpired env t⟩
  | expire key ttl => exact ⟨trivial, effect_setDeadline env t hp ttl⟩
  | comparePast r deadline =>
    obtain ⟨requests, hpast⟩ := t.isPast_cases env deadline
    refine ⟨hbranch trivial trivial, ?_⟩
    show Effect k t (t.isPast env deadline).2 []
    rw [hpast]
    exact effect_of_eq rfl rfl
  | compareTTL deadline =>
    cases deadline with
    | none => exact ⟨trivial, effect_of_eq rfl rfl⟩
    | some exp => exact ⟨trivial, effect_of_eq rfl rfl⟩
  | lookKey key ttl => exact ⟨hbranch hp trivial, effect_of_eq rfl rfl⟩
  | checkLimit => exact ⟨hbranch trivial trivial, effect_of_eq rfl rfl⟩
  | candidates => exact ⟨hbranch trivial trivial, effect_of_eq rfl rfl⟩
  | chooseKey keys => exact ⟨hbranch trivial trivial, effect_of_eq rfl rfl⟩
  | _ => exact ⟨trivial, effect_of_eq rfl rfl⟩

/-! ### What the marks say -/

/-- What the marks say of the key. -/
structure Marked (k v : GoString) (t : TTLStore MapStore) (marks : List KeyMark) : Prop where
  deadline : .deadline ∈ marks → (k ∈ t.expireAt ↔ ¬Follows .deadline .cleared marks)
  value : .written ∈ marks →
    (t.inner.strings.lookup k = some v ↔ ¬Follows .written .deleted marks)

/-- A step of a call that does not write the key. -/
theorem Marked.effect (h : Marked k v t marks) (heffect : Effect k t t' new) :
    Marked k v t' (marks ++ new) := by
  cases heffect with
  | nothing deadline value =>
    rw [List.append_nil]
    exact ⟨fun hmem ↦ deadline.trans (h.deadline hmem), fun hmem ↦ by rw [value, h.value hmem]⟩
  | cleared deadline value =>
    constructor
    · intro hmem
      have hbefore : .deadline ∈ marks := by simpa using hmem
      simp [follows_concat_iff, hbefore, deadline]
    · intro hmem
      have hbefore : .written ∈ marks := by simpa using hmem
      simp [follows_concat_iff, value, h.value hbefore]
  | deleted deadline value =>
    constructor
    · intro hmem
      have hbefore : .deadline ∈ marks := by simpa using hmem
      simp [follows_concat_iff, deadline, h.deadline hbefore]
    · intro hmem
      have hbefore : .written ∈ marks := by simpa using hmem
      simp [follows_concat_iff, hbefore, value]

/-- The step of `SetWithTTL` that records the deadline. -/
theorem Marked.setDeadline (h : Marked k v t marks) (hnone : .deadline ∉ marks) (env : Environment)
    (ttl : Duration) : Marked k v (t.setDeadline env k ttl) (marks ++ [.deadline]) := by
  constructor
  · intro _
    have hmem : k ∈ (t.setDeadline env k ttl).expireAt := Finmap.mem_insert.mpr (Or.inl rfl)
    simp only [hmem, true_iff, follows_concat_iff, reduceCtorEq, and_false, or_false]
    exact fun hfollows ↦ hnone hfollows.mem
  · intro hmem
    have hbefore : .written ∈ marks := by simpa using hmem
    simp only [follows_concat_iff, reduceCtorEq, and_false, or_false]
    exact h.value hbefore

/-- The step of `SetWithTTL` that writes the value. -/
theorem Marked.writeInner (h : Marked k v t marks) (hnone : .written ∉ marks) :
    Marked k v (t.writeInner (.set k v)) (marks ++ [.written]) := by
  constructor
  · intro hmem
    have hbefore : .deadline ∈ marks := by simpa using hmem
    simp only [follows_concat_iff, reduceCtorEq, and_false, or_false]
    exact h.deadline hbefore
  · intro _
    have hlookup : (t.writeInner (.set k v)).inner.strings.lookup k = some v :=
      Finmap.lookup_insert _
    simp only [hlookup, true_iff, follows_concat_iff, reduceCtorEq, and_false, or_false]
    exact fun hfollows ↦ hnone hfollows.mem

/-- How far the call of `SetWithTTL` has got. -/
inductive Stage (k v : GoString) (ttl : Duration) (marks : List KeyMark) : Phase → Prop
  | entered (deadline : .deadline ∉ marks) (written : .written ∉ marks) :
      Stage k v ttl marks (.setDeadline k v ttl)
  | recorded (deadline : .deadline ∈ marks) (written : .written ∉ marks) :
      Stage k v ttl marks (.writeInner (.set k v))
  | done {p : Phase} (deadline : .deadline ∈ marks) (written : .written ∈ marks)
      (spares : p.Spares k) : Stage k v ttl marks p

theorem Stage.effect {ttl : Duration} {p : Phase} (h : Stage k v ttl marks p)
    (heffect : Effect k t t' new) : Stage k v ttl (marks ++ new) p := by
  have hsame : (.deadline ∈ marks ++ new ↔ .deadline ∈ marks) ∧
      (.written ∈ marks ++ new ↔ .written ∈ marks) := by
    cases heffect <;> simp
  cases h with
  | entered deadline written => exact .entered (hsame.1.not.mpr deadline) (hsame.2.not.mpr written)
  | recorded deadline written => exact .recorded (hsame.1.mpr deadline) (hsame.2.not.mpr written)
  | done deadline written spares =>
    exact .done (hsame.1.mpr deadline) (hsame.2.mpr written) spares

end Steps

/-! ### Whole runs -/

section Runs

variable {ι : Type} [DecidableEq ι] {k v : GoString} {ttl : Duration} {w : ι}
  {c : Config ι (TTLStore MapStore) Phase} {marks : List KeyMark}

/-- One thread is in its call of `SetWithTTL` or has finished it, and no other writes the key. -/
structure OneWriter (k v : GoString) (ttl : Duration) (w : ι)
    (c : Config ι (TTLStore MapStore) Phase) (marks : List KeyMark) : Prop where
  marked : Marked k v c.shared marks
  stage : Stage k v ttl marks (c.threads w)
  others : ∀ i, i ≠ w → (c.threads i).Spares k

omit [DecidableEq ι] in
theorem Stage.done_of_idle {p : Phase} (h : Stage k v ttl marks p) (hidle : p.idle = true) :
    .deadline ∈ marks ∧ .written ∈ marks := by
  cases h with
  | entered => exact absurd hidle (by simp [Phase.idle])
  | recorded => exact absurd hidle (by simp [Phase.idle])
  | done deadline written => exact ⟨deadline, written⟩

theorem OneWriter.enter (h : OneWriter k v ttl w c marks) {i : ι}
    (hidle : (c.threads i).idle = true) {call : Call} (hcall : call.Spares k) :
    OneWriter k v ttl w ⟨c.shared, Function.update c.threads i (Phase.enter call)⟩ marks := by
  refine ⟨h.marked, ?_, fun j hj ↦ ?_⟩
  · show Stage k v ttl marks (Function.update c.threads i (Phase.enter call) w)
    by_cases hi : w = i
    · rw [hi, Function.update_self]
      obtain ⟨hdeadline, hwritten⟩ := h.stage.done_of_idle (hi ▸ hidle)
      exact .done hdeadline hwritten hcall.enter
    · rw [Function.update_of_ne hi]
      exact h.stage
  · show (Function.update c.threads i (Phase.enter call) j).Spares k
    by_cases hi : j = i
    · rw [hi, Function.update_self]
      exact hcall.enter
    · rw [Function.update_of_ne hi]
      exact h.others j hj

/-- A step of the thread that writes, with the marks and the stage it leads to. -/
theorem OneWriter.update (h : OneWriter k v ttl w c marks) {t : TTLStore MapStore} {p : Phase}
    {marks' : List KeyMark} (hmarked : Marked k v t marks') (hstage : Stage k v ttl marks' p) :
    OneWriter k v ttl w ⟨t, Function.update c.threads w p⟩ marks' := by
  refine ⟨hmarked, ?_, fun j hj ↦ ?_⟩
  · show Stage k v ttl marks' (Function.update c.threads w p w)
    rw [Function.update_self]
    exact hstage
  · show (Function.update c.threads w p j).Spares k
    rw [Function.update_of_ne hj]
    exact h.others j hj

theorem OneWriter.advance (h : OneWriter k v ttl w c marks) (env : Environment) (i : ι) :
    OneWriter k v ttl w
      ⟨((c.threads i).advance env c.shared).1,
        Function.update c.threads i ((c.threads i).advance env c.shared).2⟩
      (marks ++ keyMarks env k c (.advance i)) := by
  show OneWriter k v ttl w _ (marks ++ (c.threads i).marks env k c.shared)
  by_cases hi : i = w
  · subst hi
    have hstage := h.stage
    generalize c.threads i = phase at hstage ⊢
    cases hstage with
    | entered deadline written =>
      simp only [Phase.marks, if_true]
      exact h.update (h.marked.setDeadline deadline env ttl) (.recorded (by simp) (by simpa))
    | recorded deadline written =>
      simp only [Phase.marks, Write.key, if_true]
      exact h.update (h.marked.writeInner written) (.done (by simp [deadline]) (by simp) trivial)
    | done deadline written spares =>
      obtain ⟨hnext, heffect⟩ := spares.advance env c.shared
      exact h.update (h.marked.effect heffect)
        (.done (by simp [deadline]) (by simp [written]) hnext)
  · obtain ⟨hnext, heffect⟩ := (h.others i hi).advance env c.shared
    refine ⟨h.marked.effect heffect, ?_, fun j hj ↦ ?_⟩
    · show Stage k v ttl _ (Function.update c.threads i _ w)
      rw [Function.update_of_ne (Ne.symm hi)]
      exact h.stage.effect heffect
    · show (Function.update c.threads i _ j).Spares k
      by_cases hji : j = i
      · rw [hji, Function.update_self]
        exact hnext
      · rw [Function.update_of_ne hji]
        exact h.others j hj

end Runs

/-- A thread has entered `SetWithTTL` for a key, in any configuration in which no other thread is
about to write the key or to give it a deadline, and no such call is entered later. Once all calls
have finished, the key has a deadline if it holds the value exactly if this holds: when a removal
has taken the deadline out after it was recorded, some removal deletes the key after the value was
written. -/
theorem deadline_kept_iff {ι : Type} [DecidableEq ι] (env : Environment) {k v : GoString}
    {ttl : Duration} {w : ι} {c : Config ι (TTLStore MapStore) Phase}
    (hw : c.threads w = .setDeadline k v ttl) (hothers : ∀ i, i ≠ w → (c.threads i).Spares k)
    {events : List (Event ι Call)} (hevents : ∀ i call, .enter i call ∈ events → call.Spares k)
    (hquiet : (ttlThreads env).Quiet ((ttlThreads env).run c events)) :
    let reached := ((ttlThreads env).run c events).shared
    let marks := (ttlThreads env).observed (keyMarks env k) c events
    (reached.inner.strings.lookup k = some v → k ∈ reached.expireAt) ↔
      (Follows .deadline .cleared marks → Follows .written .deleted marks) := by
  intro reached marks
  have hstart : OneWriter k v ttl w c [] := by
    refine ⟨⟨fun hmem ↦ absurd hmem List.not_mem_nil, fun hmem ↦ absurd hmem List.not_mem_nil⟩, ?_,
      hothers⟩
    rw [hw]
    exact .entered List.not_mem_nil List.not_mem_nil
  have hguarded : (ttlThreads env).Guarded
      (fun _ event ↦ ∀ i call, event = .enter i call → call.Spares k) c events :=
    ThreadSystem.guarded_of_forall fun _ event hevent i call heq ↦ hevents i call (heq ▸ hevent)
  have hrun : OneWriter k v ttl w ((ttlThreads env).run c events) ([] ++ marks) := by
    refine ThreadSystem.run_invariant (keyMarks env k) (OneWriter k v ttl w) []
      (fun c marks i call hc hidle hcall ↦ ?_) (fun c marks i hc _ _ ↦ hc.advance env i) hstart
      hguarded
    rw [keyMarks, List.append_nil]
    exact hc.enter hidle (hcall i call rfl)
  rw [List.nil_append] at hrun
  obtain ⟨hdeadline, hwritten⟩ := hrun.stage.done_of_idle (hquiet w)
  rw [hrun.marked.deadline hdeadline, hrun.marked.value hwritten]
  exact not_imp_not

/-- `SetWithTTL` from its start to its end, and then a `Del`. -/
theorem deadline_kept_iff_del :
    let c : Config (Fin 2) (TTLStore MapStore) Phase :=
      ⟨TTLStore.new MapStore.new,
        fun i ↦ if i = 0 then .setDeadline (text "k") (text "v") 5 else .finished .nothing⟩
    let events : List (Event (Fin 2) Call) :=
      [.advance 0, .advance 0, .advance 0, .advance 0, .advance 0, .enter 1 (.del (text "k")),
        .advance 1, .advance 1, .advance 1]
    let reached := ((ttlThreads stillClock).run c events).shared
    reached.inner.strings.lookup (text "k") = some (text "v") → text "k" ∈ reached.expireAt := by
  refine (deadline_kept_iff stillClock (w := 0) rfl (fun i hi ↦ ?_) (fun i call hcall ↦ ?_)
    (by decide)).mpr (by decide)
  · simp only [if_neg hi]
    trivial
  · simp only [List.mem_cons, List.not_mem_nil, or_false, Event.enter.injEq, reduceCtorEq,
      false_or] at hcall
    obtain ⟨-, rfl⟩ := hcall
    trivial

/-- A `Del` runs from its start to its end between the first two steps of `SetWithTTL`: the key
holds the value and has no deadline. -/
theorem deadline_lost :
    let c : Config (Fin 2) (TTLStore MapStore) Phase :=
      ⟨TTLStore.new MapStore.new, fun _ ↦ .finished .nothing⟩
    let events : List (Event (Fin 2) Call) :=
      [.enter 0 (.setWithTTL (text "k") (text "v") 5), .advance 0, .enter 1 (.del (text "k")),
        .advance 1, .advance 1, .advance 1, .advance 0, .advance 0, .advance 0, .advance 0]
    let reached := (ttlThreads stillClock).run c events
    (ttlThreads stillClock).Quiet reached ∧
      reached.shared.inner.strings.lookup (text "k") = some (text "v") ∧
      text "k" ∉ reached.shared.expireAt := by
  decide

end FluxCache.Store
