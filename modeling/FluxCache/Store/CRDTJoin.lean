import FluxCache.Store.CRDTHistory

/-!
# Merge as a join

A merge does to every key, to every hash and to the clock one operation each: it combines the
registers of a key (`lookup_merge`), copies the fields of a hash over those that are there
(`lookup_hashes_merge`), and takes the greatest of the clock and the timestamps that come in
(`clock_merge`). So the laws of a join are those of the three operations: a merge is associative and
does not depend on the order of its iterations, and a store whose clock has not wrapped does not
change when it is merged into itself.

It is not commutative. Both the registers and the hashes favour one side where the two stores have
different values, registers the store that is merged into and hashes the other one. And a deletion
leaves nothing behind that a merge could see.
-/

set_option autoImplicit false
set_option relaxedAutoImplicit false

namespace FluxCache.Store

open FluxCache.Foundation

namespace CRDTStore

/-! ### Hashes -/

/-- A hash after the fields of another have been copied over it. -/
def overlay (held other : Option (GoMap GoString)) : Option (GoMap GoString) :=
  other.elim held fun fields ↦ some (fields ∪ held.getD ∅)

theorem overlay_assoc (first second third : Option (GoMap GoString)) :
    overlay (overlay first second) third = overlay first (overlay second third) := by
  cases third with
  | none => rfl
  | some fields =>
    cases second with
    | none =>
      simp only [overlay, Option.elim_some, Option.elim_none, Option.getD_none, Finmap.union_empty]
    | some middle =>
      simp only [overlay, Option.elim_some, Option.getD_some, Finmap.union_assoc]

theorem overlay_self (held : Option (GoMap GoString)) : overlay held held = held := by
  cases held with
  | none => rfl
  | some fields =>
    refine congrArg some (Finmap.ext_lookup fun field ↦ ?_)
    by_cases hfield : field ∈ fields
    · exact Finmap.lookup_union_left hfield
    · exact Finmap.lookup_union_right hfield

/-- Copying two hashes over each other gives the same exactly if they have no field with different
values. -/
theorem overlay_comm_iff {held other : Option (GoMap GoString)} :
    overlay held other = overlay other held ↔
      ∀ left ∈ held, ∀ right ∈ other, ∀ field, ∀ v ∈ left.lookup field,
        ∀ w ∈ right.lookup field, v = w := by
  cases held with
  | none => cases other <;> simp [overlay]
  | some left =>
    cases other with
    | none => simp [overlay]
    | some right =>
      simp only [overlay, Option.elim_some, Option.getD_some, Option.some.injEq, Option.mem_def,
        forall_eq']
      constructor
      · intro heq field v hv w hw
        have hlookup := congrArg (Finmap.lookup field) heq
        rw [Finmap.lookup_union_left (Finmap.mem_of_lookup_eq_some hw),
          Finmap.lookup_union_left (Finmap.mem_of_lookup_eq_some hv), hv, hw] at hlookup
        exact (Option.some.inj hlookup).symm
      · intro hsame
        refine Finmap.ext_lookup fun field ↦ ?_
        by_cases hleft : field ∈ left
        · rw [Finmap.lookup_union_left hleft]
          by_cases hright : field ∈ right
          · obtain ⟨v, hv⟩ := Finmap.mem_iff.mp hleft
            obtain ⟨w, hw⟩ := Finmap.mem_iff.mp hright
            rw [Finmap.lookup_union_left hright, hv, hw, hsame field v hv w hw]
          · rw [Finmap.lookup_union_right hright]
        · rw [Finmap.lookup_union_right hleft]
          by_cases hright : field ∈ right
          · rw [Finmap.lookup_union_left hright]
          · rw [Finmap.lookup_union_right hright, Finmap.lookup_eq_none.mpr hleft,
              Finmap.lookup_eq_none.mpr hright]

theorem hashes_mergeValues (entries : List (GoString × CRDTValue)) (s : CRDTStore) :
    (entries.foldl mergeValue s).hashes = s.hashes := by
  induction entries generalizing s with
  | nil => rfl
  | cons entry entries ih => exact ih (s.mergeValue entry)

/-- A merge copies the hashes of the other store over those of the first. -/
theorem lookup_hashes_merge (env : Environment) (i : ℕ) (s other : CRDTStore) (hash : GoString) :
    (s.merge env i other).hashes.lookup hash =
      overlay (s.hashes.lookup hash) (other.hashes.lookup hash) := by
  have hself (s : CRDTStore) (hash : GoString) (fields : GoMap GoString) :
      (s.mergeHash (hash, fields)).hashes.lookup hash =
        overlay (s.hashes.lookup hash) (some fields) := Finmap.lookup_insert _
  have hother (s : CRDTStore) (hash : GoString) (entry : GoString × GoMap GoString)
      (hne : hash ≠ entry.1) : (s.mergeHash entry).hashes.lookup hash = s.hashes.lookup hash :=
    Finmap.lookup_insert_of_ne _ hne
  have hfold := foldl_entries (fun s hash ↦ s.hashes.lookup hash)
    (fun held fields ↦ overlay held (some fields)) hself hother env (i + 1) other.hashes
    ((env.entries i other.data).foldl mergeValue s) hash
  rw [hashes_mergeValues] at hfold
  exact hfold

/-! ### The clock -/

/-- A time bounds the clock after a merge exactly if it bounds the clock before and all the
timestamps that come in. -/
theorem clock_merge_le_iff (env : Environment) (i : ℕ) (s other : CRDTStore) {t : UInt64} :
    (s.merge env i other).clock ≤ t ↔ s.clock ≤ t ∧ ∀ ts ∈ other.stamps, ts ≤ t := by
  obtain ⟨hmem, hupper⟩ := clock_merge env i s other
  constructor
  · intro hle
    exact ⟨(hupper (Set.mem_insert _ _)).trans hle, fun ts hts ↦ (hupper (Or.inr hts)).trans hle⟩
  · rintro ⟨hclock, hstamps⟩
    rcases hmem with heq | hmem
    · rw [heq]
      exact hclock
    · exact hstamps _ hmem

theorem forall_stamps_le_iff {s : CRDTStore} {t : UInt64} :
    (∀ ts ∈ s.stamps, ts ≤ t) ↔ ∀ key v, s.data.lookup key = some v → v.ts ≤ t := by
  constructor
  · exact fun hle key v hlookup ↦ hle _ ⟨key, v, hlookup, rfl⟩
  · rintro hle _ ⟨key, v, hlookup, rfl⟩
    exact hle key v hlookup

theorem forall_stamps_merge_le_iff (env : Environment) (i : ℕ) (s other : CRDTStore)
    {t : UInt64} :
    (∀ ts ∈ (s.merge env i other).stamps, ts ≤ t) ↔
      (∀ ts ∈ s.stamps, ts ≤ t) ∧ ∀ ts ∈ other.stamps, ts ≤ t := by
  simp only [forall_stamps_le_iff, lookup_merge, combine_le_iff]
  exact forall_and

/-! ### The laws of the join -/

/-- The outcome of a merge does not depend on the order of its iterations. -/
theorem merge_order (env env' : Environment) (i j : ℕ) (s other : CRDTStore) :
    s.merge env i other = s.merge env' j other := by
  refine CRDTStore.ext ?_ ?_ ?_
  · refine Finmap.ext_lookup fun key ↦ ?_
    rw [lookup_merge, lookup_merge]
  · refine Finmap.ext_lookup fun hash ↦ ?_
    rw [lookup_hashes_merge, lookup_hashes_merge]
  · refine eq_of_forall_ge_iff fun t ↦ ?_
    rw [clock_merge_le_iff, clock_merge_le_iff]

theorem merge_assoc (env : Environment) (i j k l : ℕ) (a b c : CRDTStore) :
    (a.merge env i b).merge env j c = a.merge env k (b.merge env l c) := by
  refine CRDTStore.ext ?_ ?_ ?_
  · refine Finmap.ext_lookup fun key ↦ ?_
    rw [lookup_merge, lookup_merge, lookup_merge, lookup_merge, combine_assoc]
  · refine Finmap.ext_lookup fun hash ↦ ?_
    rw [lookup_hashes_merge, lookup_hashes_merge, lookup_hashes_merge, lookup_hashes_merge,
      overlay_assoc]
  · refine eq_of_forall_ge_iff fun t ↦ ?_
    rw [clock_merge_le_iff, clock_merge_le_iff, clock_merge_le_iff, forall_stamps_merge_le_iff,
      and_assoc]

/-- Assumes: the clock is not before the timestamps in the store. -/
theorem merge_self (env : Environment) (i : ℕ) {s : CRDTStore}
    (hclock : ∀ ts ∈ s.stamps, ts ≤ s.clock) : s.merge env i s = s := by
  refine CRDTStore.ext ?_ ?_ ?_
  · refine Finmap.ext_lookup fun key ↦ ?_
    rw [lookup_merge, combine_self]
  · refine Finmap.ext_lookup fun hash ↦ ?_
    rw [lookup_hashes_merge, overlay_self]
  · refine eq_of_forall_ge_iff fun t ↦ ?_
    rw [clock_merge_le_iff, and_iff_left_iff_imp]
    exact fun hle ts hts ↦ (hclock ts hts).trans hle

theorem Unwrapped.stamps_le {env : Environment} {h : History} (hh : h.Unwrapped env) :
    ∀ ts ∈ (h.store env).stamps, ts ≤ (h.store env).clock :=
  fun _ hts ↦ (Unwrapped.isGreatest hh).2 (Or.inr (stamps_subset_seen env h hts))

/-- A merge is a join of whole states. Assumes: the clock of the first store has not wrapped. -/
theorem crdt_merge_join (env : Environment) (a b c : History) (ha : a.Unwrapped env) :
    (∀ i j k l, ((a.store env).merge env i (b.store env)).merge env j (c.store env) =
        (a.store env).merge env k ((b.store env).merge env l (c.store env))) ∧
      (∀ i, (a.store env).merge env i (a.store env) = a.store env) ∧
      (∀ i key v, (a.store env).data.lookup key = some v →
        ∃ w, ((a.store env).merge env i (b.store env)).data.lookup key = some w ∧ v.ts ≤ w.ts) ∧
      ∀ env' i j, (a.store env).merge env i (b.store env) =
        (a.store env).merge env' j (b.store env) := by
  refine ⟨fun i j k l ↦ ?_, fun i ↦ ?_, fun i key v hv ↦ ?_, fun env' i j ↦ ?_⟩
  · exact merge_assoc env i j k l _ _ _
  · exact merge_self env i (Unwrapped.stamps_le ha)
  · rw [lookup_merge]
    exact exists_combine_eq hv _
  · exact merge_order env env' i j _ _

/-- Two stores that have written the same key at the same time, with a third one. -/
theorem crdt_merge_join_ties :
    let a := History.new.set (text "k") (text "a")
    let b := History.new.set (text "k") (text "b")
    let c := History.new.hset (text "h") (text "f") (text "c")
    a.Unwrapped stillClock ∧
      ((a.store stillClock).merge stillClock 0 (b.store stillClock)).merge stillClock 0
          (c.store stillClock) =
        (a.store stillClock).merge stillClock 0
          ((b.store stillClock).merge stillClock 0 (c.store stillClock)) := by
  intro a b c
  have ha : a.Unwrapped stillClock := ⟨trivial, by decide⟩
  exact ⟨ha, (crdt_merge_join stillClock a b c ha).1 0 0 0 0⟩

/-! ### Deletions -/

/-- A deletion between two merges of the same store lasts exactly if that store does not hold the
key. -/
theorem crdt_deletion_lasts_iff (env : Environment) (i j : ℕ) (a b : History) (key : GoString) :
    ((((a.store env).merge env i (b.store env)).del key).merge env j (b.store env)).get key =
        ([], false) ↔ (b.store env).get key = ([], false) := by
  have hdeleted : (((a.store env).merge env i (b.store env)).del key).data.lookup key = none :=
    Finmap.lookup_erase _ _
  rw [get, lookup_merge, hdeleted, combine_none_left, get]

/-- The other store holds a string under the key, and the second merge brings it back. -/
theorem crdt_deletion_undone :
    let b := History.new.set (text "k") (text "v")
    (((CRDTStore.new.merge stillClock 0 (b.store stillClock)).del (text "k")).merge stillClock 0
        (b.store stillClock)).get (text "k") = (text "v", true) := by
  intro b
  have hdeleted : ((CRDTStore.new.merge stillClock 0 (b.store stillClock)).del
      (text "k")).data.lookup (text "k") = none := Finmap.lookup_erase _ _
  rw [get, lookup_merge, hdeleted, combine_none_left]
  decide

/-! ### Hashes that are merged with each other -/

/-- Two stores that merge each other answer every `HGetAll` alike exactly if no field of a hash has
different values in them. -/
theorem crdt_hashes_converge_iff (env : Environment) (i j : ℕ) (a b : History) :
    (∀ hash, ((a.store env).merge env i (b.store env)).hgetAll hash =
        ((b.store env).merge env j (a.store env)).hgetAll hash) ↔
      ∀ hash field, ∀ left ∈ (a.store env).hgetAll hash, ∀ right ∈ (b.store env).hgetAll hash,
        ∀ v ∈ left.lookup field, ∀ w ∈ right.lookup field, v = w := by
  refine forall_congr' fun hash ↦ ?_
  rw [hgetAll, hgetAll, hashGetAll, hashGetAll, lookup_hashes_merge, lookup_hashes_merge,
    overlay_comm_iff]
  exact ⟨fun h field left hleft right hright ↦ h left hleft right hright field,
    fun h left hleft right hright field ↦ h field left hleft right hright⟩

/-- Two fresh stores each set a field of a hash: each takes the value of the other. -/
theorem crdt_hashes_diverge :
    let a := History.new.hset (text "h") (text "f") (text "1")
    let b := History.new.hset (text "h") (text "f") (text "2")
    ((a.store stillClock).merge stillClock 0 (b.store stillClock)).hgetAll (text "h") =
        some (Finmap.singleton (text "f") (text "2")) ∧
      ((b.store stillClock).merge stillClock 0 (a.store stillClock)).hgetAll (text "h") =
        some (Finmap.singleton (text "f") (text "1")) := by
  intro a b
  rw [hgetAll, hgetAll, hashGetAll, hashGetAll, lookup_hashes_merge, lookup_hashes_merge]
  decide

end CRDTStore

end FluxCache.Store
