import FluxCache.Store.CRDTDelivery

/-!
# How a replicated store comes about

A `History` is a sequence of calls on a fresh store, in which `Merge` takes in the state of another
store with a history of its own. The timestamps that a store has `seen` are those of its own writes
and those that came with `SetWithTS` and `Merge`, also where the string was not taken or is gone.

The clock counts up and wraps around at its last value. As long as it has not (`Unwrapped`), it is
the latest timestamp seen (`Unwrapped.isGreatest`), and the next `Set` is later than all of them.
What arrives with a timestamp that was seen before then cannot replace the string
(`lookup_receiveAll`). Once the clock has wrapped, the last timestamp has been seen
(`exists_last_of_wrapped`), and no `Set` is later than everything seen any more.
-/

set_option autoImplicit false
set_option relaxedAutoImplicit false

namespace FluxCache.Store

open FluxCache.Foundation

namespace CRDTStore

/-- The timestamps of the strings in a store. -/
def stamps (s : CRDTStore) : Set UInt64 := {ts | ∃ key v, s.data.lookup key = some v ∧ v.ts = ts}

/-! ### Histories -/

/-- The calls that have led to a store. -/
inductive History
  | new
  | set (before : History) (key value : GoString)
  | setWithTS (before : History) (key value : GoString) (ts : UInt64)
  | del (before : History) (key : GoString)
  | hset (before : History) (hash key value : GoString)
  | merge (before other : History) (i : ℕ)

namespace History

variable (env : Environment)

/-- The store that a history leaves. -/
def store : History → CRDTStore
  | new => CRDTStore.new
  | set before key value => before.store.set key value
  | setWithTS before key value ts => before.store.setWithTS key value ts
  | del before key => before.store.del key
  | hset before hash key value => before.store.hset hash key value
  | merge before other i => before.store.merge env i other.store

/-- The timestamps that a store has given or received. -/
def seen : History → Set UInt64
  | new => ∅
  | set before _ _ => insert ((before.store env).clock + 1) before.seen
  | setWithTS before _ _ ts => insert ts before.seen
  | del before _ => before.seen
  | hset before _ _ _ => before.seen
  | merge before other _ => before.seen ∪ (other.store env).stamps

/-- The clock of the store has never wrapped around: every `Set` found a timestamp above its
clock. -/
def Unwrapped : History → Prop
  | new => True
  | set before _ _ => before.Unwrapped ∧ (before.store env).clock + 1 ≠ 0
  | setWithTS before _ _ _ => before.Unwrapped
  | del before _ => before.Unwrapped
  | hset before _ _ _ => before.Unwrapped
  | merge before _ _ => before.Unwrapped

end History

/-! ### The clock -/

theorem lt_next_of_ne_zero {clock : UInt64} (h : clock + 1 ≠ 0) : clock < clock + 1 := by
  rw [UInt64.lt_iff_toNat_lt, UInt64.toNat_add]
  have hlt := clock.toNat_lt
  have hne : (clock.toNat + 1) % 2 ^ 64 ≠ 0 := by
    intro hzero
    refine h (UInt64.toNat_inj.mp ?_)
    rw [UInt64.toNat_add]
    exact hzero
  show clock.toNat < (clock.toNat + 1) % 2 ^ 64
  omega

theorem le_of_next_eq_zero {clock : UInt64} (h : clock + 1 = 0) (ts : UInt64) : ts ≤ clock := by
  rw [UInt64.le_iff_toNat_le]
  have hzero := congrArg UInt64.toNat h
  rw [UInt64.toNat_add] at hzero
  have hlt := clock.toNat_lt
  have hts := ts.toNat_lt
  have hmod : (clock.toNat + 1) % 2 ^ 64 = 0 := hzero
  omega

section Clock

variable {env : Environment} {h : History}

/-- The strings in a store have timestamps that it has seen. -/
theorem stamps_subset_seen (env : Environment) (h : History) :
    (h.store env).stamps ⊆ h.seen env := by
  induction h with
  | new =>
    rintro ts ⟨key, v, hlookup, -⟩
    rw [show (History.new.store env).data = ∅ from rfl, Finmap.lookup_empty] at hlookup
    exact absurd hlookup (by simp)
  | set before key value ih =>
    rintro ts ⟨other, v, hlookup, rfl⟩
    rcases lookup_insert_cases hlookup with ⟨-, hvalue⟩ | hbefore
    · exact Or.inl (congrArg Stamped.ts hvalue)
    · exact Or.inr (ih ⟨other, v, hbefore, rfl⟩)
  | setWithTS before key value ts ih =>
    rintro _ ⟨other, v, hlookup, rfl⟩
    rw [History.store, setWithTS_eq] at hlookup
    by_cases hother : other = key
    · rw [hother, lookup_mergeValue_self] at hlookup
      rcases offer_eq_or ((before.store env).data.lookup key) ⟨value, ts⟩ with hnew | hold
      · rw [hnew] at hlookup
        exact Or.inl (congrArg Stamped.ts (Option.some.inj hlookup).symm)
      · exact Or.inr (ih ⟨key, v, hold.symm.trans hlookup, rfl⟩)
    · rw [lookup_mergeValue_of_ne _ hother] at hlookup
      exact Or.inr (ih ⟨other, v, hlookup, rfl⟩)
  | del before key ih =>
    rintro _ ⟨other, v, hlookup, rfl⟩
    exact ih ⟨other, v, lookup_of_lookup_erase hlookup, rfl⟩
  | hset before hash key value ih => exact ih
  | merge before other i ih _ =>
    rintro _ ⟨key, v, hlookup, rfl⟩
    rw [History.store, lookup_merge] at hlookup
    rcases combine_eq_or ((before.store env).data.lookup key) ((other.store env).data.lookup key)
      with hheld | hother
    · exact Or.inl (ih ⟨key, v, hheld.symm.trans hlookup, rfl⟩)
    · exact Or.inr ⟨key, v, hother.symm.trans hlookup, rfl⟩

/-- A clock that has not wrapped is the latest timestamp seen. -/
theorem Unwrapped.isGreatest (hh : h.Unwrapped env) :
    IsGreatest (insert 0 (h.seen env)) (h.store env).clock := by
  induction h with
  | new =>
    rw [show History.new.seen env = ∅ from rfl, insert_empty_eq]
    exact isGreatest_singleton
  | set before key value ih =>
    have hlt := lt_next_of_ne_zero hh.2
    refine ⟨Or.inr (Or.inl rfl), fun ts hts ↦ ?_⟩
    rw [History.seen, Set.insert_comm] at hts
    rcases hts with rfl | hts
    · exact le_refl _
    · exact ((ih hh.1).2 hts).trans hlt.le
  | setWithTS before key value ts ih =>
    rw [History.store, History.seen, setWithTS_eq, clock_mergeValue, Set.insert_comm, max_comm]
    exact (ih hh).insert ts
  | del before key ih => exact ih hh
  | hset before hash key value ih => exact ih hh
  | merge before other i ih _ =>
    obtain ⟨hmem, hupper⟩ := clock_merge env i (before.store env) (other.store env)
    obtain ⟨hclock, hbefore⟩ := ih hh
    refine ⟨?_, fun ts hts ↦ ?_⟩
    · rcases hmem with hsame | hnew
      · rw [History.store, hsame]
        exact Set.insert_subset_insert Set.subset_union_left hclock
      · exact Or.inr (Or.inr hnew)
    · have hle := hupper (Set.mem_insert _ _)
      rcases hts with rfl | hts | hts
      · exact (hbefore (Set.mem_insert _ _)).trans hle
      · exact (hbefore (Or.inr hts)).trans hle
      · exact hupper (Or.inr hts)

/-- Where the clock has wrapped, the last timestamp has been seen. -/
theorem exists_last_of_wrapped (hh : ¬h.Unwrapped env) : ∃ last ∈ h.seen env, ∀ ts, ts ≤ last := by
  induction h with
  | new => exact absurd trivial hh
  | set before key value ih =>
    by_cases hbefore : before.Unwrapped env
    · have hzero : (before.store env).clock + 1 = 0 := by
        by_contra hne
        exact hh ⟨hbefore, hne⟩
      refine ⟨(before.store env).clock, Or.inr ?_, le_of_next_eq_zero hzero⟩
      rcases (Unwrapped.isGreatest hbefore).1 with hclock | hseen
      · rw [hclock] at hzero
        exact absurd hzero (by decide)
      · exact hseen
    · obtain ⟨last, hlast, hall⟩ := ih hbefore
      exact ⟨last, Or.inr hlast, hall⟩
  | setWithTS before key value ts ih =>
    obtain ⟨last, hlast, hall⟩ := ih hh
    exact ⟨last, Or.inr hlast, hall⟩
  | del before key ih => exact ih hh
  | hset before hash key value ih => exact ih hh
  | merge before other i ih _ =>
    obtain ⟨last, hlast, hall⟩ := ih hh
    exact ⟨last, Or.inl hlast, hall⟩

end Clock

/-! ### What arrives later -/

/-- What a store can receive: a write, or the state of another store with the number of the first
range of the merge. -/
inductive Incoming
  | write (w : TimedWrite)
  | state (other : CRDTStore) (i : ℕ)

/-- The effect of what is received. -/
def receive (env : Environment) (s : CRDTStore) : Incoming → CRDTStore
  | .write w => s.deliver w
  | .state other i => s.merge env i other

/-- What is offered for a key. -/
def Incoming.offered (key : GoString) : Incoming → Option CRDTValue
  | write w => if w.key = key then some ⟨w.value, w.ts⟩ else none
  | state other _ => other.data.lookup key

theorem lookup_receive (env : Environment) (s : CRDTStore) (x : Incoming) (key : GoString) :
    (s.receive env x).data.lookup key = combine (s.data.lookup key) (x.offered key) := by
  cases x with
  | write w =>
    rw [receive, deliver, setWithTS_eq, Incoming.offered]
    by_cases hkey : w.key = key
    · rw [if_pos hkey, ← hkey, lookup_mergeValue_self]
      rfl
    · rw [if_neg hkey, lookup_mergeValue_of_ne s (Ne.symm hkey)]
      rfl
  | state other i => exact lookup_merge env i s other key

/-- A string stays as long as nothing later arrives for its key. -/
theorem lookup_receiveAll (env : Environment) {s : CRDTStore} {key : GoString} {top : CRDTValue}
    (hheld : s.data.lookup key = some top) {incoming : List Incoming}
    (hincoming : ∀ x ∈ incoming, ∀ v ∈ x.offered key, v.ts ≤ top.ts) :
    (incoming.foldl (receive env) s).data.lookup key = some top := by
  induction incoming generalizing s with
  | nil => exact hheld
  | cons x incoming ih =>
    obtain ⟨hx, hrest⟩ := List.forall_mem_cons.mp hincoming
    refine ih ?_ hrest
    rw [lookup_receive, hheld]
    exact combine_eq_left hx

/-! ### A local write against everything seen -/

/-- `Set` is later than every timestamp that the store has seen exactly if the clock has never
wrapped around, in this call or before. Then it is also later than the strings that are there, and
nothing that arrives with timestamps seen before replaces the string. -/
theorem set_dominates_iff (env : Environment) (h : History) (key value : GoString) :
    ∃ ts, ((h.store env).set key value).data.lookup key = some ⟨value, ts⟩ ∧
      ((∀ t ∈ h.seen env, t < ts) ↔ (h.set key value).Unwrapped env) ∧
      ((h.set key value).Unwrapped env →
        (∀ t ∈ (h.store env).stamps, t < ts) ∧
          ∀ incoming : List Incoming,
            (∀ x ∈ incoming, ∀ v ∈ x.offered key, v.ts ∈ h.seen env) →
              (incoming.foldl (receive env) ((h.store env).set key value)).get key =
                (value, true)) := by
  have hstored : ((h.store env).set key value).data.lookup key =
      some ⟨value, (h.store env).clock + 1⟩ := Finmap.lookup_insert _
  have hlater (hunwrapped : (h.set key value).Unwrapped env) :
      ∀ t ∈ h.seen env, t < (h.store env).clock + 1 := by
    intro t ht
    exact ((Unwrapped.isGreatest hunwrapped.1).2 (Or.inr ht)).trans_lt
      (lt_next_of_ne_zero hunwrapped.2)
  refine ⟨(h.store env).clock + 1, hstored, ⟨fun hall ↦ ?_, hlater⟩, fun hunwrapped ↦ ⟨?_, ?_⟩⟩
  · by_contra hwrapped
    obtain ⟨last, hlast, htop⟩ := exists_last_of_wrapped hwrapped
    rcases hlast with rfl | hseen
    · have hwraps : (h.store env).clock + 1 ≠ 0 := by
        intro hzero
        rw [hzero] at htop
        exact absurd (htop 1) (by decide)
      have hbefore : ¬h.Unwrapped env := fun hbefore ↦ hwrapped ⟨hbefore, hwraps⟩
      obtain ⟨last, hlast, hall'⟩ := exists_last_of_wrapped hbefore
      exact absurd (hall last hlast) (not_lt.mpr (hall' _))
    · exact absurd (hall last hseen) (not_lt.mpr (htop _))
  · exact fun t ht ↦ hlater hunwrapped t (stamps_subset_seen env h ht)
  · intro incoming hincoming
    have hkept := lookup_receiveAll env hstored fun x hx v hv ↦
      (hlater hunwrapped v.ts (hincoming x hx v hv)).le
    rw [get, hkept]
    rfl

/-- A peer has pushed the clock to its last timestamp. The next `Set` gets the timestamp 0, below
the one that is there, and a write with that timestamp replaces the string. -/
theorem set_dominated :
    let h := History.new.setWithTS (text "a") (text "x") 18446744073709551615
    18446744073709551615 ∈ (h.store stillClock).stamps ∧
      ((h.store stillClock).set (text "k") (text "v")).data.lookup (text "k") =
        some ⟨text "v", 0⟩ ∧
      (((h.store stillClock).set (text "k") (text "v")).setWithTS (text "k") (text "w")
        18446744073709551615).get (text "k") = (text "w", true) := by
  refine ⟨⟨text "a", ⟨text "x", 18446744073709551615⟩, ?_, rfl⟩, ?_, ?_⟩
  · decide
  · decide
  · decide

end CRDTStore

end FluxCache.Store
