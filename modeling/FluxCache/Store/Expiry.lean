import FluxCache.Store.PolicyMemory
import FluxCache.Store.Slots
import FluxCache.Store.TTLSweep

/-!
# Keys whose deadline is over

A deadline that is over is noticed by the reads of its key and by the sweeps, which then remove the
key. The writes do not look at it: a string or a field that is written to such a key is removed by
the next read. A new deadline replaces the old one without a look at it either, and then what was
left under the key is found again.

Without eviction all this is about the cell of the key. A call makes of a cell whose deadline is
over an empty one, or one whose deadline is over, unless it gives the key a deadline that lies ahead
(`Call.Extends`). So, as long as no such call comes before the key has been removed, the values that
are found under the key are those that were written since (`Forgotten.run`).
-/

set_option autoImplicit false
set_option relaxedAutoImplicit false

namespace FluxCache.Store

open FluxCache.Foundation

/-! ### The clock during a run -/

namespace TTLStore

section Requests

variable {σ : Type} [StoreInterface σ]

theorem requests_le_evictIfNeeded (env : Environment) (t : TTLStore σ) :
    t.requests ≤ (t.evictIfNeeded env).requests := by
  unfold evictIfNeeded
  by_cases hshould : t.shouldEvict = true
  · rw [if_pos hshould]
    dsimp only
    split
    · exact Nat.le_succ t.requests
    · split
      · exact Nat.le_add_right t.requests 2
      · exact Nat.le_add_right t.requests 2
  · rw [if_neg hshould]

theorem requests_le_write (env : Environment) (t : TTLStore σ) (w : Write) :
    t.requests ≤ (t.write env w).requests :=
  (Nat.le_succ t.requests).trans
    (((t.writeInner w).track env w.key).requests_le_evictIfNeeded env)

/-- A read looks at the clock, for the deadline of its key or for the policy. -/
theorem requests_lt_read (env : Environment) (t : TTLStore σ) (r : Read) :
    t.requests < (t.read env r).2.requests := by
  unfold TTLStore.read
  cases t.expireAt.lookup r.key with
  | none => exact Nat.lt_succ_self t.requests
  | some exp =>
    dsimp only [isPast]
    split
    · exact Nat.lt_succ_self t.requests
    · exact Nat.lt_add_of_pos_right (by decide : 0 < 2)

theorem requests_sweep (env : Environment) (t : TTLStore σ) :
    (t.sweep env).requests = t.requests + 2 := by
  have hdrop (keys : List GoString) (t : TTLStore σ) :
      (keys.foldl dropExpired t).requests = t.requests := by
    induction keys generalizing t with
    | nil => rfl
    | cons key keys ih => exact ih (t.dropExpired key)
  exact hdrop _ _

/-- The number of requests never goes back. -/
theorem requests_le_call (env : Environment) (t : TTLStore σ) (c : Call) :
    t.requests ≤ (t.call env c).2.requests := by
  cases c with
  | write w =>
    cases w with
    | set key value => exact t.requests_le_write env (.set key value)
    | hset hash key value => exact t.requests_le_write env (.hset hash key value)
  | setWithTTL key value ttl =>
    exact (Nat.le_succ _).trans ((t.setDeadline env key ttl).requests_le_write env (.set key value))
  | read r =>
    cases r with
    | get key => exact (t.requests_lt_read env (.get key)).le
    | hget hash key => exact (t.requests_lt_read env (.hget hash key)).le
    | hgetAll hash => exact (t.requests_lt_read env (.hgetAll hash)).le
  | del key => exact le_refl _
  | expire key ttl =>
    show t.requests ≤ (t.expire env key ttl).2.requests
    unfold TTLStore.expire
    split
    · exact Nat.le_succ _
    · exact le_refl _
  | ttl key =>
    show t.requests ≤ (t.remaining env (t.expireAt.lookup key)).2.requests
    cases t.expireAt.lookup key with
    | none => exact le_refl _
    | some exp => exact Nat.le_succ _
  | sweep =>
    show t.requests ≤ (t.sweep env).requests
    rw [requests_sweep]
    exact Nat.le_add_right _ _

end Requests

/-! ### A read after a write -/

section Cells

variable {t : TTLStore MapStore} {key : GoString}

theorem policy_run_noEviction (hpolicy : t.policy = .noEviction) (env : Environment)
    (calls : List Call) : (t.run env calls).policy = .noEviction := by
  refine policy_run (motive := fun p ↦ p = .noEviction) ?_ ?_ env calls hpolicy
  · rintro _ now key rfl
    rfl
  · rintro _ key rfl
    rfl

/-- What every call does to the cell of a key. -/
theorem cell_call (hpolicy : t.policy = .noEviction) (env : Environment) (c : Call)
    (key : GoString) :
    (t.call env c).2.cell key =
      if c.key = some key ∨ c = .sweep then ((t.cell key).act (env.now t.requests) c).2
      else t.cell key := by
  by_cases hsweep : c = .sweep
  · rw [if_pos (Or.inr hsweep), hsweep]
    exact cell_sweep env t key
  · obtain ⟨k, hk⟩ := exists_key hsweep
    have hacts := actsOn_call hpolicy env hk
    by_cases hkey : c.key = some key
    · obtain rfl := Option.some.inj (hk.symm.trans hkey)
      rw [if_pos (Or.inl hkey), hacts.self]
    · rw [if_neg (not_or.mpr ⟨hkey, hsweep⟩)]
      exact hacts.others key fun heq ↦ hkey (heq ▸ hk)

/-- A read of the key that was just written finds what is there with the write, if the deadline that
the key had is not over. -/
theorem read_write (hpolicy : t.policy = .noEviction) (env : Environment) {w : Write} {r : Read}
    (hkey : r.key = w.key) :
    ((t.write env w).read env r).1 =
      if (t.cell w.key).isOver (env.now (t.write env w).requests) then r.missing
      else ((t.cell w.key).act (env.now t.requests) (.write w)).2.answer r := by
  have hwrite : ActsOn (env.now t.requests) (.write w) w.key t _ := actsOn_write hpolicy env w
  have hover (now : Time) :
      ((t.write env w).cell w.key).isOver now = (t.cell w.key).isOver now := by
    rw [hwrite.self]
    cases w with
    | set key value => rfl
    | hset hash key value => rfl
  rw [(actsOn_read hwrite.policy env r).reply, hkey, ← hover, ← hwrite.self]
  show (if _ then _ else _ : Reply × Cell).1 = _
  split
  · rfl
  · rfl

/-- A value that is read right after it was written. Assumes: it is found where the deadline that
the key had is not over. -/
theorem read_write_iff (hpolicy : t.policy = .noEviction) (env : Environment) {w : Write} {r : Read}
    {reply : Reply} (hkey : r.key = w.key) (hmissing : r.missing ≠ reply)
    (hanswer : ((t.cell w.key).act (env.now t.requests) (.write w)).2.answer r = reply) :
    ((t.write env w).read env r).1 = reply ↔
      ∀ exp ∈ t.expireAt.lookup w.key, env.now (t.write env w).requests ≤ exp := by
  have hlive : (∀ exp ∈ t.expireAt.lookup w.key, env.now (t.write env w).requests ≤ exp) ↔
      ¬(t.cell w.key).isOver (env.now (t.write env w).requests) = true := by
    rw [Cell.isOver_iff]
    constructor
    · rintro hle ⟨exp, hexp, hlt⟩
      exact absurd hlt (not_lt.mpr (hle exp hexp))
    · intro hnone exp hexp
      exact not_lt.mp fun hlt ↦ hnone ⟨exp, hexp, hlt⟩
  rw [hlive, read_write hpolicy env hkey, hanswer]
  split
  · rename_i hover
    exact iff_of_false hmissing (not_not.mpr hover)
  · rename_i hlive
    exact iff_of_true rfl hlive

end Cells

/-- In every run without eviction, a string or a field that is read right after it was written is
found exactly if the deadline that the key had before, if there was one, is not over at the read. -/
theorem write_after_expiry_iff (env : Environment) (maxKeys : ℤ) (calls : List Call) :
    let t := ((TTLStore.new MapStore.new).setEvictionPolicy .noEviction maxKeys).run env calls
    (∀ key value, ((t.set env key value).get env key).1 = .value (value, true) ↔
      ∀ exp ∈ t.expireAt.lookup key, env.now (t.set env key value).requests ≤ exp) ∧
    ∀ hash key value, ((t.hset env hash key value).hget env hash key).1 = .value (value, true) ↔
      ∀ exp ∈ t.expireAt.lookup hash, env.now (t.hset env hash key value).requests ≤ exp := by
  intro t
  have hpolicy : t.policy = .noEviction := policy_run_noEviction rfl env calls
  have hmissing (value : GoString) : Reply.value ([], false) ≠ .value (value, true) := by
    intro heq
    exact absurd (Prod.mk.inj (Reply.value.inj heq)).2 Bool.false_ne_true
  refine ⟨fun key value ↦ ?_, fun hash key value ↦ ?_⟩
  · exact @read_write_iff t hpolicy env (.set key value) (.get key) _ rfl (hmissing value) rfl
  · refine @read_write_iff t hpolicy env (.hset hash key value) (.hget hash key) _ rfl
      (hmissing value) ?_
    show Reply.value (commaOk ((((t.cell hash).hash.getD ∅).insert key value).lookup key)) = _
    rw [Finmap.lookup_insert]
    rfl

/-- A string and a field that are written after the deadline of their key and read at once. -/
theorem write_after_expiry_lost :
    let t := ((TTLStore.new MapStore.new).setEvictionPolicy .noEviction 0).run tickingClock
      [.setWithTTL (text "k") (text "old") 1]
    ((t.set tickingClock (text "k") (text "new")).get tickingClock (text "k")).1 =
        .value ([], false) ∧
      ((t.hset tickingClock (text "k") (text "f") (text "new")).hget tickingClock (text "k")
        (text "f")).1 = .value ([], false) := by
  intro t
  exact ⟨rfl, rfl⟩

end TTLStore

/-! ### What was written since -/

/-- The key of a place. -/
def Slot.key : Slot → GoString
  | .string key => key
  | .field hash _ => hash

/-- The value that a call writes to a place. -/
def Call.written (slot : Slot) : Call → Option GoString
  | .write w => if w.slot = slot then some w.value else none
  | .setWithTTL key value _ => if Slot.string key = slot then some value else none
  | _ => none

/-- The value of the last of the calls that write to a place. -/
def lastWritten (slot : Slot) (calls : List Call) : Option GoString :=
  calls.foldl (fun last c ↦ (c.written slot).or last) none

theorem lastWritten_concat (slot : Slot) (calls : List Call) (c : Call) :
    lastWritten slot (calls ++ [c]) = (c.written slot).or (lastWritten slot calls) := by
  rw [lastWritten, List.foldl_append]
  rfl

/-- A read finds a value at a place. -/
inductive Finds : Read → Reply → Slot → GoString → Prop
  | get {key value : GoString} : Finds (.get key) (.value (value, true)) (.string key) value
  | hget {hash key value : GoString} :
    Finds (.hget hash key) (.value (value, true)) (.field hash key) value
  | hgetAll {hash key value : GoString} {fields : GoMap GoString}
    (hfield : fields.lookup key = some value) :
    Finds (.hgetAll hash) (.fields (some fields)) (.field hash key) value

/-- The calls that remove a key whose deadline is over. -/
def Call.Removes (key : GoString) : Call → Prop
  | .read r => r.key = key
  | .del k => k = key
  | .sweep => True
  | _ => False

/-- The calls that give a key a deadline that is not over. -/
def Call.Extends (key : GoString) : Call → Prop
  | .setWithTTL k _ d => k = key ∧ 0 ≤ d
  | .expire k d => k = key ∧ 0 ≤ d
  | _ => False

/-- Until a key is removed, all calls are of a given kind. -/
def UntilRemoved (key : GoString) (allowed : Set Call) (calls : List Call) : Prop :=
  ∀ front c back, calls = front ++ c :: back → (∀ d ∈ front, ¬d.Removes key) → c ∈ allowed

theorem UntilRemoved.of_concat {key : GoString} {allowed : Set Call} {calls : List Call} {c : Call}
    (h : UntilRemoved key allowed (calls ++ [c])) : UntilRemoved key allowed calls := by
  rintro front d back rfl hfront
  refine h front d (back ++ [c]) ?_ hfront
  rw [List.append_assoc, List.cons_append]

/-- What is found is in the store. -/
theorem Finds.valueAt {s : MapStore} {r : Read} {slot : Slot} {value : GoString}
    (h : Finds r (r.answer s) slot value) : slot.key = r.key ∧ s.valueAt slot = some value := by
  have hcomma {found : Option GoString} (hfound : commaOk found = (value, true)) :
      found = some value := by
    cases found with
    | none => exact absurd (Prod.mk.inj hfound).2 Bool.false_ne_true
    | some v => exact congrArg some (Prod.mk.inj hfound).1
  obtain ⟨reply, hreply⟩ : ∃ reply, r.answer s = reply := ⟨_, rfl⟩
  rw [hreply] at h
  cases h with
  | get => exact ⟨rfl, hcomma (Reply.value.inj hreply)⟩
  | hget => exact ⟨rfl, hcomma (Reply.value.inj hreply)⟩
  | @hgetAll hash key _ fields hfield =>
    have hfields : s.hashes.lookup hash = some fields := Reply.fields.inj hreply
    rw [MapStore.valueAt, hfields]
    exact ⟨rfl, hfield⟩

/-- What is missing is not found. -/
theorem not_finds_missing {r : Read} {slot : Slot} {value : GoString} :
    ¬Finds r r.missing slot value := by
  intro h
  cases r with
  | get key => cases h
  | hget hash key => cases h
  | hgetAll hash => cases h

section Places

variable {σ : Type} {slot : Slot} {value : GoString}

theorem valueAt_of_del {s : MapStore} {key : GoString}
    (h : (s.del key).valueAt slot = some value) : s.valueAt slot = some value := by
  cases slot with
  | string k => exact lookup_of_lookup_erase h
  | field hash k =>
    obtain ⟨fields, hfields, hvalue⟩ := Option.bind_eq_some_iff.mp h
    exact Option.bind_eq_some_iff.mpr ⟨fields, lookup_of_lookup_erase hfields, hvalue⟩

namespace TTLStore

theorem valueAt_of_evictIfNeeded {env : Environment} {t : TTLStore MapStore}
    (h : (t.evictIfNeeded env).inner.valueAt slot = some value) :
    t.inner.valueAt slot = some value := by
  obtain ⟨requests, hevict | ⟨key, hevict⟩⟩ := t.evictIfNeeded_cases env
  · rwa [hevict] at h
  · rw [hevict] at h
    exact valueAt_of_del h

theorem valueAt_of_write {env : Environment} {t : TTLStore MapStore} {w : Write}
    (h : (t.write env w).inner.valueAt slot = some value) :
    (Call.written slot (.write w)).or (t.inner.valueAt slot) = some value := by
  have happly : (w.apply t.inner).valueAt slot = some value := valueAt_of_evictIfNeeded h
  rw [valueAt_apply] at happly
  rw [Call.written]
  by_cases hslot : w.slot = slot
  · rw [if_pos hslot] at happly ⊢
    exact happly
  · rw [if_neg hslot] at happly ⊢
    exact happly

/-- What is in the store inside after a call was written by the call or was there before. -/
theorem valueAt_of_call {env : Environment} {t : TTLStore MapStore} {c : Call}
    (h : (t.call env c).2.inner.valueAt slot = some value) :
    (c.written slot).or (t.inner.valueAt slot) = some value := by
  have hread {r : Read} (h : (t.read env r).2.inner.valueAt slot = some value) :
      t.inner.valueAt slot = some value := by
    obtain ⟨requests, hread | ⟨now, hread⟩⟩ := t.read_cases env r
    · rw [hread] at h
      exact valueAt_of_del h
    · rwa [hread] at h
  cases c with
  | write w =>
    cases w with
    | set key v => exact valueAt_of_write h
    | hset hash key v => exact valueAt_of_write h
  | setWithTTL key v ttl =>
    exact @valueAt_of_write _ _ env (t.setDeadline env key ttl) (.set key v) h
  | read r =>
    cases r with
    | get key => exact hread h
    | hget hash key => exact hread h
    | hgetAll hash => exact hread h
  | del key => exact valueAt_of_del h
  | expire key ttl =>
    have hinner : (t.expire env key ttl).2.inner = t.inner := by
      unfold TTLStore.expire
      split
      · rfl
      · rfl
    rw [← hinner]
    exact h
  | ttl key =>
    have hinner : (t.ttl env key).2.inner = t.inner := by
      unfold TTLStore.ttl
      cases t.expireAt.lookup key with
      | none => rfl
      | some exp => rfl
    rw [← hinner]
    exact h
  | sweep =>
    revert h
    exact sweep_induction env
      (motive := fun t' : TTLStore MapStore ↦
        t'.inner.valueAt slot = some value → t.inner.valueAt slot = some value)
      id (fun _ _ ih ↦ ih) (fun _ _ ih ↦ ih) fun _ _ ih h ↦ ih (valueAt_of_del h)

end TTLStore

end Places

/-- What a call makes of a cell whose deadline is over. -/
theorem Cell.act_of_isOver {cell : Cell} {now : Time} {c : Call} {key : GoString}
    (hover : cell.isOver now = true) (hkey : c.key = some key ∨ c = .sweep)
    (hc : ¬c.Extends key) :
    (cell.act now c).2 = empty ∨ ¬c.Removes key ∧ (cell.act now c).2.isOver now = true := by
  have hpast {k : GoString} {d : Duration} (hk : k = key) (h : ¬(k = key ∧ 0 ≤ d)) :
      now + d < now :=
    add_lt_of_neg_right now (not_le.mp fun hle ↦ h ⟨hk, hle⟩)
  cases c with
  | write w =>
    cases w with
    | set k value => exact Or.inr ⟨id, hover⟩
    | hset hash k value => exact Or.inr ⟨id, hover⟩
  | setWithTTL k value d =>
    have hk : k = key := Option.some.inj (hkey.resolve_right nofun)
    exact Or.inr ⟨id, isOver_iff.mpr ⟨now + d, rfl, hpast hk hc⟩⟩
  | read r =>
    have hact : cell.act now (.read r) = (r.missing, empty) := if_pos hover
    exact Or.inl (congrArg Prod.snd hact)
  | del k => exact Or.inl rfl
  | expire k d =>
    have hk : k = key := Option.some.inj (hkey.resolve_right nofun)
    refine Or.inr ⟨id, ?_⟩
    show (if _ then _ else _ : Reply × Cell).2.isOver now = true
    split
    · exact isOver_iff.mpr ⟨now + d, rfl, hpast hk hc⟩
    · exact hover
  | ttl k => exact Or.inr ⟨id, hover⟩
  | sweep => exact Or.inl (if_pos hover)

namespace TTLStore

section Forgotten

variable {env : Environment} {key : GoString} {calls : List Call} {c : Call}
  {t : TTLStore MapStore}

/-- Some calls after the deadline of a key was over: it is over and the key has not been removed, or
all that is under the key was written by these calls. -/
structure Forgotten (env : Environment) (key : GoString) (calls : List Call)
    (t : TTLStore MapStore) : Prop where
  policy : t.policy = .noEviction
  written : ((t.cell key).isOver (env.now t.requests) = true ∧ ∀ d ∈ calls, ¬d.Removes key) ∨
    ∀ slot, slot.key = key → ∀ value, t.inner.valueAt slot = some value →
      lastWritten slot calls = some value

/-- A deadline that is over stays over. -/
theorem isOver_call {cell : Cell} (hover : cell.isOver (env.now t.requests) = true) (c : Call) :
    cell.isOver (env.now (t.call env c).2.requests) = true := by
  obtain ⟨exp, hexp, hlt⟩ := Cell.isOver_iff.mp hover
  refine Cell.isOver_iff.mpr ⟨exp, hexp, hlt.trans_le ?_⟩
  exact env.monotone_now (t.requests_le_call env c)

theorem valueAt_of_cell_empty (hcell : t.cell key = .empty) {slot : Slot} (hslot : slot.key = key) :
    t.inner.valueAt slot = none := by
  subst hslot
  cases slot with
  | string k => exact congrArg Cell.string hcell
  | field hash k =>
    have hhash : t.inner.hashes.lookup hash = none := congrArg Cell.hash hcell
    rw [MapStore.valueAt, hhash]
    rfl

/-- One call. Assumes: if the key has not been removed, the call does not give it a deadline that is
not over. -/
theorem Forgotten.call (ht : Forgotten env key calls t)
    (hc : (∀ d ∈ calls, ¬d.Removes key) → ¬c.Extends key) :
    Forgotten env key (calls ++ [c]) (t.call env c).2 := by
  refine ⟨policy_run_noEviction ht.policy env [c], ?_⟩
  rcases ht.written with ⟨hover, hstays⟩ | hwritten
  · have hcell := cell_call ht.policy env c key
    by_cases hkey : c.key = some key ∨ c = .sweep
    · rw [if_pos hkey] at hcell
      rcases Cell.act_of_isOver hover hkey (hc hstays) with hempty | ⟨hremoves, hafter⟩
      · refine Or.inr fun slot hslot value hvalue ↦ ?_
        rw [valueAt_of_cell_empty (hcell.trans hempty) hslot] at hvalue
        exact absurd hvalue (Option.some_ne_none value).symm
      · rw [hcell]
        refine Or.inl ⟨isOver_call hafter c, List.forall_mem_append.mpr ⟨hstays, ?_⟩⟩
        exact List.forall_mem_singleton.mpr hremoves
    · rw [hcell, if_neg hkey]
      obtain ⟨hother, hsweep⟩ := not_or.mp hkey
      refine Or.inl ⟨isOver_call hover c, List.forall_mem_append.mpr ⟨hstays, ?_⟩⟩
      refine List.forall_mem_singleton.mpr fun hremoves ↦ ?_
      cases c with
      | read r => exact hother (congrArg some hremoves)
      | del k => exact hother (congrArg some hremoves)
      | sweep => exact hsweep rfl
      | _ => exact hremoves
  · refine Or.inr fun slot hslot value hvalue ↦ ?_
    have hor := valueAt_of_call hvalue
    rw [lastWritten_concat]
    cases hnew : c.written slot with
    | none =>
      rw [hnew, Option.none_or] at hor
      rw [Option.none_or]
      exact hwritten slot hslot value hor
    | some v =>
      rw [hnew] at hor
      exact hor

/-- Assumes: the deadline of the key is over, and no call that comes before the key has been removed
gives it a deadline that is not. -/
theorem Forgotten.run {allowed : Set Call} (hpolicy : t.policy = .noEviction)
    (hover : (t.cell key).isOver (env.now t.requests) = true)
    (hallowed : ∀ c ∈ allowed, ¬c.Extends key) (hcalls : UntilRemoved key allowed calls) :
    Forgotten env key calls (t.run env calls) := by
  induction calls using List.reverseRecOn with
  | nil => exact ⟨hpolicy, Or.inl ⟨hover, fun _ h ↦ absurd h List.not_mem_nil⟩⟩
  | append_singleton calls c ih =>
    rw [run_append]
    refine (ih hcalls.of_concat).call fun hstays ↦ hallowed c ?_
    exact hcalls calls c [] rfl hstays

/-- What a read finds was written by the calls. -/
theorem Forgotten.written_of_finds (ht : Forgotten env key calls t) {r : Read} (hr : r.key = key)
    {slot : Slot} {value : GoString} (hfinds : Finds r (t.read env r).1 slot value) :
    lastWritten slot calls = some value := by
  have hreply := (actsOn_read ht.policy env r).reply
  rw [hreply, hr] at hfinds
  by_cases hover : (t.cell key).isOver (env.now t.requests) = true
  · have hact : (t.cell key).act (env.now t.requests) (.read r) = (r.missing, .empty) :=
      if_pos hover
    rw [hact] at hfinds
    exact absurd hfinds not_finds_missing
  · have hact : (t.cell key).act (env.now t.requests) (.read r) =
        ((t.cell key).answer r, t.cell key) := if_neg hover
    rw [hact, ← hr, ← answer_eq] at hfinds
    obtain ⟨hslot, hvalue⟩ := hfinds.valueAt
    exact ht.written.resolve_left (fun h ↦ hover h.1) slot (hslot.trans hr) value hvalue

end Forgotten

/-! ### Keys that come back -/

section Return

variable {key : GoString} {c : Call}

/-- The clock that stands at 0 for some readings and at 1 from then on. -/
def jumpingClock (readings : ℕ) : Environment :=
  .ofClock (fun i ↦ if i < readings then 0 else 1) fun i j hij ↦ by
    dsimp only
    split
    · split <;> decide
    · rw [if_neg (by omega)]

/-- A call that gives a key a new deadline leaves its hash. Assumes: the key has a string. -/
theorem act_of_extends {cell : Cell} (hc : c.Extends key) (hstring : cell.string.isSome = true)
    (now : Time) :
    ∃ d, 0 ≤ d ∧ (cell.act now c).2.deadline = some (now + d) ∧
      (cell.act now c).2.hash = cell.hash := by
  cases c with
  | setWithTTL k value d => exact ⟨d, hc.2, rfl, rfl⟩
  | expire k d =>
    have hact : cell.act now (.expire k d) =
        (.flag true, { cell with deadline := some (now + d) }) := if_pos hstring
    rw [hact]
    exact ⟨d, hc.2, rfl, rfl⟩
  | _ => exact absurd hc id

/-- A read after a call that gives a key a new deadline is answered from what was there. Assumes:
the clock stands still, and the key has a string. -/
theorem read_of_extends {t : TTLStore MapStore} {env : Environment} {r : Read}
    (hpolicy : t.policy = .noEviction) (hc : c.Extends key) (hr : r.key = key)
    (hstring : (t.cell key).string.isSome = true)
    (hstill : env.now (t.call env c).2.requests = env.now t.requests) :
    ((t.call env c).2.read env r).1 = ((t.cell key).act (env.now t.requests) c).2.answer r := by
  have hkey : c.key = some key := by
    cases c with
    | setWithTTL k value d => exact congrArg some hc.1
    | expire k d => exact congrArg some hc.1
    | _ => exact absurd hc id
  have hacts := actsOn_call hpolicy env hkey
  have hlive : ¬((t.cell key).act (env.now t.requests) c).2.isOver (env.now t.requests) = true := by
    rw [Cell.isOver_iff]
    rintro ⟨exp, hexp, hlt⟩
    obtain ⟨d, hd, hdeadline, -⟩ := act_of_extends hc hstring (env.now t.requests)
    obtain rfl := Option.some.inj (hdeadline.symm.trans hexp)
    exact absurd hlt (not_lt.mpr (le_add_of_nonneg_right hd))
  rw [(actsOn_read hacts.policy env r).reply, hr, hacts.self, hstill]
  exact congrArg Prod.fst (if_neg hlive)

/-- After a call that gives a key a new deadline a field can be found that was written before the
old deadline was over. -/
theorem exists_return (hc : c.Extends key) :
    ∃ (env : Environment) (before : List Call) (r : Read) (slot : Slot) (value : GoString),
      let t := ((TTLStore.new MapStore.new).setEvictionPolicy .noEviction 0).run env before
      (∃ exp ∈ t.expireAt.lookup key, exp < env.now t.requests) ∧ r.key = key ∧
        Finds r ((t.call env c).2.read env r).1 slot value ∧ c.written slot = none := by
  refine ⟨jumpingClock 3,
    [.write (.hset key (text "f") (text "v")), .setWithTTL key (text "s") 0],
    .hget key (text "f"), .field key (text "f"), text "v", ?_⟩
  intro t
  have hpolicy : t.policy = .noEviction := policy_run_noEviction rfl _ _
  have hexpireAt : t.expireAt = Finmap.insert key 0 ∅ := rfl
  have hstrings : t.inner.strings = Finmap.insert key (text "s") ∅ := rfl
  have hhashes : t.inner.hashes =
      Finmap.insert key (Finmap.insert (text "f") (text "v") ∅) ∅ := rfl
  have hcell : t.cell key =
      ⟨some 0, some (text "s"), some (Finmap.insert (text "f") (text "v") ∅)⟩ := by
    rw [cell, hexpireAt, hstrings, hhashes, Finmap.lookup_insert, Finmap.lookup_insert,
      Finmap.lookup_insert]
  have hnow {i : ℕ} (hi : 3 ≤ i) : (jumpingClock 3).now i = 1 := if_neg (not_lt.mpr hi)
  have hrequests : t.requests = 3 := rfl
  refine ⟨⟨0, congrArg Cell.deadline hcell, ?_⟩, rfl, ?_, ?_⟩
  · rw [hnow hrequests.ge]
    decide
  · have hafter := hrequests.ge.trans (t.requests_le_call (jumpingClock 3) c)
    have hstill : (jumpingClock 3).now (t.call (jumpingClock 3) c).2.requests =
        (jumpingClock 3).now t.requests := by
      rw [hnow hafter, hnow hrequests.ge]
    have hstring : (t.cell key).string.isSome = true := by
      rw [hcell]
      rfl
    rw [@read_of_extends key c t _ (.hget key (text "f")) hpolicy hc rfl hstring hstill]
    obtain ⟨d, -, -, hhash⟩ := act_of_extends hc hstring ((jumpingClock 3).now t.requests)
    rw [Cell.answer, hhash, hcell, Option.bind_some, Finmap.lookup_insert]
    exact Finds.hget
  · cases c with
    | setWithTTL k value d => rfl
    | expire k d => rfl
    | _ => exact absurd hc id

end Return

/-- Without eviction, what is found under a key after its deadline was over was written since, in
all runs in which the calls that come before the key has been removed are of a given kind, exactly
if no call of that kind gives the key a deadline that is not over: `Expire` or `SetWithTTL` with a
time to live that is not negative. A key is removed by a sweep, by `Del` and by every read of it. -/
theorem expired_stays_gone_iff (key : GoString) (allowed : Set Call) :
    (∀ (env : Environment) (maxKeys : ℤ) (before later : List Call),
      let t := ((TTLStore.new MapStore.new).setEvictionPolicy .noEviction maxKeys).run env before
      (∃ exp ∈ t.expireAt.lookup key, exp < env.now t.requests) →
        UntilRemoved key allowed later → ∀ r : Read, r.key = key → ∀ slot value,
          Finds r ((t.run env later).read env r).1 slot value →
            lastWritten slot later = some value) ↔
      ∀ c ∈ allowed, ¬c.Extends key := by
  constructor
  · intro hgone c hc hextends
    obtain ⟨env, before, r, slot, value, hover, hr, hfinds, hnone⟩ := exists_return hextends
    have huntil : UntilRemoved key allowed [c] := by
      intro front d back hcalls _
      rcases List.singleton_eq_append_iff.mp hcalls with ⟨-, hback⟩ | ⟨-, hback⟩
      · rw [(List.cons.inj hback).1]
        exact hc
      · exact absurd hback (List.cons_ne_nil d back)
    have hwritten := hgone env 0 before [c] hover huntil r hr slot value hfinds
    rw [← List.nil_append [c], lastWritten_concat, hnone] at hwritten
    exact absurd hwritten (Option.some_ne_none value).symm
  · rintro hallowed env maxKeys before later t ⟨exp, hexp, hlt⟩ huntil r hr slot value hfinds
    have hover : (t.cell key).isOver (env.now t.requests) = true :=
      Cell.isOver_iff.mpr ⟨exp, hexp, hlt⟩
    have hpolicy : t.policy = .noEviction := policy_run_noEviction rfl env before
    exact (Forgotten.run hpolicy hover hallowed huntil).written_of_finds hr hfinds

/-- A string and a field are found after their deadline is over, because an `Expire` came before the
key was removed. -/
theorem expired_value_back :
    let t := ((TTLStore.new MapStore.new).setEvictionPolicy .noEviction 0).run tickingClock
      [.write (.hset (text "k") (text "f") (text "w")), .setWithTTL (text "k") (text "v") 1]
    (∃ exp ∈ t.expireAt.lookup (text "k"), exp < tickingClock.now t.requests) ∧
      ((t.run tickingClock [.expire (text "k") 10]).get tickingClock (text "k")).1 =
        .value (text "v", true) ∧
      ((t.run tickingClock [.expire (text "k") 10]).hget tickingClock (text "k") (text "f")).1 =
        .value (text "w", true) := by
  intro t
  exact ⟨⟨2, rfl, by decide⟩, rfl, rfl⟩

end TTLStore

end FluxCache.Store
