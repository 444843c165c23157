import FluxCache.Foundation.RWMutex
import FluxCache.Store.CRDT

/-!
# The locks of the replicated store

Every call of `CRDTStore` takes the mutex of its store. `Merge` takes a read lock of the other store
before each of its two loops and releases one of them at its end, and takes the lock of its own
store in every turn of the loops. So each merge leaves a reader on the store it reads, for ever.

Calls are made one after another on any number of stores. What a call does to the mutexes is one
equation (`call_eq`): it goes through exactly if the store that it locks for writing, if it does,
has no reader, and a merge adds a reader to the store that it reads. The contents are those of the
store without mutexes. From this follows when a whole sequence of calls goes through
(`callAll_eq_ok_iff`).
-/

set_option autoImplicit false
set_option relaxedAutoImplicit false

namespace FluxCache.Store

open FluxCache.Foundation

variable {ι : Type}

/-- A call on one of several stores. A merge has the number of its first range over a map. -/
inductive CRDTCall (ι : Type)
  | write (i : ι) (w : Write)
  | setWithTS (i : ι) (key value : GoString) (ts : UInt64)
  | del (i : ι) (key : GoString)
  | read (i : ι) (r : Read)
  | merge (into other : ι) (n : ℕ)

namespace CRDTCall

/-- The store that a call reads under a lock that it does not release. -/
def source : CRDTCall ι → Option ι
  | .merge _ other _ => some other
  | _ => none

/-- The store that a call locks for writing, if it does: a merge of an empty store makes no turn of
its loops. -/
def target (stores : ι → CRDTStore) : CRDTCall ι → Option ι
  | .write i _ => some i
  | .setWithTS i _ _ _ => some i
  | .del i _ => some i
  | .read _ _ => none
  | .merge into other _ =>
    if (stores other).data = ∅ ∧ (stores other).hashes = ∅ then none else some into

end CRDTCall

variable [DecidableEq ι]

/-! ### The calls -/

/-- `Merge` with its locks. -/
def lockedMerge (env : Environment) (n : ℕ) (into other : ι) (w : ι → Locked CRDTStore) :
    Except LockFault (ι → Locked CRDTStore) := do
  let w ← onMember other (Locked.onMutex RWMutex.rlock) w
  let w ← (env.entries n (w other).value.data).foldlM
    (fun w entry ↦ onMember into (Locked.exclusive (CRDTStore.mergeValue · entry)) w) w
  let w ← onMember other (Locked.onMutex RWMutex.rlock) w
  let w ← (env.entries (n + 1) (w other).value.hashes).foldlM
    (fun w entry ↦ onMember into (Locked.exclusive (CRDTStore.mergeHash · entry)) w) w
  onMember other (Locked.onMutex RWMutex.runlock) w

/-- A call, with its reply. -/
def CRDTCall.call (env : Environment) (w : ι → Locked CRDTStore) :
    CRDTCall ι → Except LockFault (Reply × (ι → Locked CRDTStore))
  | .write i x => do return (.nothing, ← onMember i (Locked.exclusive x.apply) w)
  | .setWithTS i key value ts => do
    return (.nothing, ← onMember i (Locked.exclusive (CRDTStore.setWithTS · key value ts)) w)
  | .del i key => do return (.nothing, ← onMember i (Locked.exclusive (CRDTStore.del · key)) w)
  | .read i r => do
    let (reply, after) ← (w i).shared fun s ↦ r.answer s
    return (reply, Function.update w i after)
  | .merge into other n => do return (.nothing, ← lockedMerge env n into other w)

/-- Calls that are made one after another. -/
def callAll (env : Environment) (w : ι → Locked CRDTStore) (calls : List (CRDTCall ι)) :
    Except LockFault (ι → Locked CRDTStore) :=
  calls.foldlM (fun w c ↦ (c.call env w).map Prod.snd) w

/-- What a call does to the stores, without their mutexes. -/
def CRDTCall.apply (env : Environment) (stores : ι → CRDTStore) : CRDTCall ι → ι → CRDTStore
  | .write i x => Function.update stores i (x.apply (stores i))
  | .setWithTS i key value ts =>
    Function.update stores i ((stores i).setWithTS key value ts)
  | .del i key => Function.update stores i ((stores i).del key)
  | .read _ _ => stores
  | .merge into other n =>
    Function.update stores into ((stores into).merge env n (stores other))

/-- What calls do to the stores, without their mutexes. -/
def applyAll (env : Environment) (stores : ι → CRDTStore) (calls : List (CRDTCall ι)) :
    ι → CRDTStore :=
  calls.foldl (CRDTCall.apply env) stores

/-- The readers that a call leaves on a store. -/
def CRDTCall.leak (c : CRDTCall ι) (i : ι) : ℕ := if c.source = some i then 1 else 0

/-! ### One call -/

section Call

variable (env : Environment) {stores : ι → CRDTStore} {readers : ι → ℕ}

omit env in
theorem update_readers_eq_zero_iff {into other : ι} (n : ℕ) :
    Function.update readers other (n + 1) into = 0 ↔ readers into = 0 ∧ other ≠ into := by
  by_cases hsame : other = into
  · simp [hsame]
  · simp [hsame, Function.update_of_ne (Ne.symm hsame)]

/-- A merge goes through if there is nothing to merge, or its own store has no reader and is not the
store that it reads. -/
theorem lockedMerge_eq (n : ℕ) (into other : ι) :
    lockedMerge env n into other (leaky stores readers) =
      if ((stores other).data = ∅ ∧ (stores other).hashes = ∅) ∨ (readers into = 0 ∧ other ≠ into)
      then .ok (leaky
        (Function.update stores into ((stores into).merge env n (stores other)))
        (Function.update readers other (readers other + 1)))
      else .error .blocked := by
  have hdata : env.entries n (stores other).data = [] ↔ (stores other).data = ∅ :=
    entries_eq_nil_iff
  have hhashes : env.entries (n + 1) (stores other).hashes = [] ↔ (stores other).hashes = ∅ :=
    entries_eq_nil_iff
  have hzero (k : ℕ) : Function.update readers other (k + 1) into = 0 ↔
      readers into = 0 ∧ other ≠ into := update_readers_eq_zero_iff k
  have hlast (values : ι → CRDTStore) :
      onMember other (Locked.onMutex RWMutex.runlock)
          (leaky values (Function.update readers other (readers other + 1 + 1))) =
        .ok (leaky values (Function.update readers other (readers other + 1))) := by
    rw [onMember_runlock (Function.update_self ..), Function.update_idem]
  rw [lockedMerge, onMember_rlock, ok_bind, value_leaky, foldlM_exclusive]
  by_cases hfree : readers into = 0 ∧ other ≠ into
  · -- Neither loop finds a reader, and the other store stays as it is.
    rw [if_pos (Or.inr ((hzero _).mpr hfree)), if_pos (Or.inr hfree), ok_bind, onMember_rlock,
      ok_bind, Function.update_self, Function.update_idem, value_leaky,
      Function.update_of_ne hfree.2, foldlM_exclusive, if_pos (Or.inr ((hzero _).mpr hfree)),
      ok_bind, hlast, Function.update_idem, Function.update_self]
    rfl
  · have hreaders (k : ℕ) : Function.update readers other (k + 1) into ≠ 0 :=
      fun h ↦ hfree ((hzero k).mp h)
    by_cases hempty : (stores other).data = ∅
    · rw [hdata.mpr hempty, if_pos (Or.inl rfl), List.foldl_nil, Function.update_eq_self,
        ok_bind, onMember_rlock, ok_bind, Function.update_self, Function.update_idem, value_leaky,
        foldlM_exclusive]
      by_cases hnone : (stores other).hashes = ∅
      · rw [hhashes.mpr hnone, if_pos (Or.inl rfl), if_pos (Or.inl ⟨hempty, hnone⟩), ok_bind,
          hlast, CRDTStore.merge, hdata.mpr hempty, hhashes.mpr hnone]
        rfl
      · rw [if_neg (not_or.mpr ⟨fun h ↦ hnone (hhashes.mp h), hreaders _⟩),
          if_neg (not_or.mpr ⟨fun hboth ↦ hnone hboth.2, hfree⟩)]
        rfl
    · rw [if_neg (not_or.mpr ⟨fun h ↦ hempty (hdata.mp h), hreaders _⟩),
        if_neg (not_or.mpr ⟨fun hboth ↦ hempty hboth.1, hfree⟩)]
      rfl

/-- The store that a call locks for writing has no reader. -/
def CRDTCall.Free (stores : ι → CRDTStore) (readers : ι → ℕ) (c : CRDTCall ι) : Prop :=
  ∀ i ∈ c.target stores, readers i = 0 ∧ c.source ≠ some i

theorem readers_add_leak_merge (into other : ι) (n : ℕ) :
    (fun i ↦ readers i + (CRDTCall.merge into other n).leak i) =
      Function.update readers other (readers other + 1) := by
  funext i
  by_cases hi : i = other
  · rw [hi, Function.update_self]
    exact congrArg (readers other + ·) (if_pos rfl)
  · rw [Function.update_of_ne hi]
    exact congrArg (readers i + ·) (if_neg fun heq ↦ hi (Option.some.inj heq).symm)

/-- A call of the writer on a member of the family. -/
theorem map_exclusive (reply : Reply) (i : ι) (body : CRDTStore → CRDTStore) :
    (do return (reply, ← onMember i (Locked.exclusive body) (leaky stores readers)) :
        Except LockFault (Reply × (ι → Locked CRDTStore))).map Prod.snd =
      if readers i = 0 then .ok (leaky (Function.update stores i (body (stores i))) readers)
      else .error .blocked := by
  rw [onMember_exclusive]
  by_cases hreaders : readers i = 0
  · rw [if_pos hreaders]
    rfl
  · rw [if_neg hreaders]
    rfl

/-- What a call does: it goes through exactly if the store that it locks for writing has no reader,
and it leaves a reader on the store that it merges. -/
theorem call_eq (c : CRDTCall ι) [Decidable (c.Free stores readers)] :
    (c.call env (leaky stores readers)).map Prod.snd =
      if c.Free stores readers then
        .ok (leaky (c.apply env stores) fun i ↦ readers i + c.leak i)
      else .error .blocked := by
  have hwriter {i : ι} (htarget : c.target stores = some i) (hsource : c.source = none) :
      c.Free stores readers ↔ readers i = 0 := by
    simp [CRDTCall.Free, htarget, hsource]
  cases c with
  | write i x =>
    refine (map_exclusive .nothing i x.apply).trans ?_
    exact if_congr (hwriter rfl rfl).symm rfl rfl
  | setWithTS i key value ts =>
    refine (map_exclusive .nothing i (CRDTStore.setWithTS · key value ts)).trans ?_
    exact if_congr (hwriter rfl rfl).symm rfl rfl
  | del i key =>
    refine (map_exclusive .nothing i (CRDTStore.del · key)).trans ?_
    exact if_congr (hwriter rfl rfl).symm rfl rfl
  | read i r =>
    have hsame : Function.update (leaky stores readers) i (leaky stores readers i) =
      leaky stores readers := Function.update_eq_self i _
    have hshared : (leaky stores readers i).shared (fun s ↦ r.answer s) =
      .ok (r.answer (stores i), leaky stores readers i) := Locked.shared_eq _ _ _
    rw [if_pos (show CRDTCall.Free stores readers (.read i r) from nofun), CRDTCall.call, hshared]
    exact congrArg Except.ok hsame
  | merge into other n =>
    have hfree : (CRDTCall.merge into other n).Free stores readers ↔
        ((stores other).data = ∅ ∧ (stores other).hashes = ∅) ∨
          (readers into = 0 ∧ other ≠ into) := by
      unfold CRDTCall.Free CRDTCall.target CRDTCall.source
      by_cases hempty : (stores other).data = ∅ ∧ (stores other).hashes = ∅
      · simp [hempty]
      · simp [hempty]
    rw [CRDTCall.call, lockedMerge_eq, readers_add_leak_merge]
    by_cases h : (CRDTCall.merge into other n).Free stores readers
    · rw [if_pos h, if_pos (hfree.mp h)]
      rfl
    · rw [if_neg h, if_neg fun hor ↦ h (hfree.mpr hor)]
      rfl

end Call

/-! ### Sequences of calls -/

section Sequence

variable (env : Environment) (stores : ι → CRDTStore)

/-- The readers that calls leave on a store. -/
def leaks (calls : List (CRDTCall ι)) (i : ι) : ℕ := calls.countP fun c ↦ c.source = some i

omit env stores in
theorem leaks_eq_zero_iff {calls : List (CRDTCall ι)} {i : ι} :
    leaks calls i = 0 ↔ ∀ c ∈ calls, c.source ≠ some i := by
  rw [leaks, List.countP_eq_zero]
  simp only [decide_eq_true_eq]

theorem callAll_append (w : ι → Locked CRDTStore) (calls : List (CRDTCall ι)) (c : CRDTCall ι) :
    callAll env w (calls ++ [c]) = callAll env w calls >>= fun w ↦ (c.call env w).map Prod.snd := by
  rw [callAll, List.foldlM_append]
  refine congrArg (Except.bind (callAll env w calls)) (funext fun w ↦ ?_)
  rw [List.foldlM_cons]
  cases (c.call env w).map Prod.snd with
  | error fault => rfl
  | ok w => rfl

/-- Calls go through exactly if each of them is free after those before it. They leave the contents
of the stores without mutexes, and a reader for every merge. -/
theorem callAll_eq_ok_iff {calls : List (CRDTCall ι)} {w : ι → Locked CRDTStore} :
    callAll env (leaky stores fun _ ↦ 0) calls = .ok w ↔
      (∀ before c after, calls = before ++ c :: after →
        c.Free (applyAll env stores before) (leaks before)) ∧
      w = leaky (applyAll env stores calls) (leaks calls) := by
  classical
  induction calls using List.reverseRecOn generalizing w with
  | nil =>
    refine ⟨fun h ↦ ⟨fun before c after hnil ↦ ?_, (Except.ok.inj h).symm⟩, fun h ↦ ?_⟩
    · exact absurd hnil.symm (List.append_ne_nil_of_right_ne_nil before (List.cons_ne_nil c after))
    · exact congrArg Except.ok h.2.symm
  | append_singleton calls last ih =>
    have hleaks : (fun i ↦ leaks calls i + last.leak i) = leaks (calls ++ [last]) := by
      funext i
      rw [leaks, leaks, List.countP_append, List.countP_singleton, CRDTCall.leak]
      exact congrArg _ (if_congr decide_eq_true_iff.symm rfl rfl)
    have happly : applyAll env stores (calls ++ [last]) =
        last.apply env (applyAll env stores calls) := List.foldl_append
    have hlast : (last.call env (leaky (applyAll env stores calls) (leaks calls))).map Prod.snd =
          .ok w ↔
        last.Free (applyAll env stores calls) (leaks calls) ∧
          w = leaky (applyAll env stores (calls ++ [last])) (leaks (calls ++ [last])) := by
      rw [call_eq, happly, ← hleaks]
      by_cases hfree : last.Free (applyAll env stores calls) (leaks calls)
      · rw [if_pos hfree]
        exact ⟨fun h ↦ ⟨hfree, (Except.ok.inj h).symm⟩, fun h ↦ congrArg Except.ok h.2.symm⟩
      · rw [if_neg hfree]
        exact ⟨nofun, fun h ↦ absurd h.1 hfree⟩
    rw [callAll_append, bind_eq_ok_iff, forall_split_concat_iff, and_assoc, ← hlast]
    constructor
    · rintro ⟨middle, hcalls, hcall⟩
      obtain ⟨hfree, rfl⟩ := ih.mp hcalls
      exact ⟨hfree, hcall⟩
    · rintro ⟨hfree, hcall⟩
      exact ⟨_, ih.mpr ⟨hfree, rfl⟩, hcall⟩

omit env stores in
/-- A call is free after other calls exactly if none of them, and not the call itself, merges the
store that it locks for writing. -/
theorem free_leaks_iff {stores : ι → CRDTStore} {before : List (CRDTCall ι)} {c : CRDTCall ι} :
    c.Free stores (leaks before) ↔
      ∀ i ∈ c.target stores, ∀ b ∈ before ++ [c], b.source ≠ some i := by
  refine forall₂_congr fun i _ ↦ ?_
  rw [leaks_eq_zero_iff, List.forall_mem_append, List.forall_mem_singleton]

/-- Calls that are made one after another all find the locks that they need exactly if no call locks
a store for writing that has been merged into another before, or that the call itself merges. -/
theorem crdt_calls_return_iff (calls : List (CRDTCall ι)) :
    (∃ w, callAll env (leaky stores fun _ ↦ 0) calls = .ok w) ↔
      ∀ before c after, calls = before ++ c :: after →
        ∀ i ∈ c.target (applyAll env stores before), ∀ b ∈ before ++ [c], b.source ≠ some i := by
  have hfree : (∀ before c after, calls = before ++ c :: after →
        c.Free (applyAll env stores before) (leaks before)) ↔
      ∀ before c after, calls = before ++ c :: after →
        ∀ i ∈ c.target (applyAll env stores before), ∀ b ∈ before ++ [c], b.source ≠ some i := by
    simp only [free_leaks_iff]
  rw [← hfree]
  constructor
  · rintro ⟨w, hw⟩
    exact ((callAll_eq_ok_iff env stores).mp hw).1
  · intro h
    exact ⟨_, (callAll_eq_ok_iff env stores).mpr ⟨h, rfl⟩⟩

end Sequence

/-- After a merge of one store into another, a write to the first waits for ever. -/
theorem crdt_write_after_merge_blocks :
    callAll stillClock (leaky (fun _ : Bool ↦ CRDTStore.new) fun _ ↦ 0)
      [.merge false true 0, .write true (.set (text "k") (text "v"))] = .error .blocked := by
  rfl

end FluxCache.Store
