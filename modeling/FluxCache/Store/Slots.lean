import FluxCache.Store.MapStore

/-!
# Places in the map store

A write writes one value to one place: the string of a key, or a field of a hash (`Write.slot`,
`Write.value`). After a write the store has that value at that place and is unchanged elsewhere
(`valueAt_apply`), so after a list of writes it has at every place the value of the last write there
(`valueAt_writeAll_or`). A store that was written to only has no empty hash, and such stores are
equal if they have the same values (`MapStore.eq_of_valueAt`). So it is decided by places whether a
write makes a difference to those after it (`writeAll_cons_eq_iff`).
-/

set_option autoImplicit false
set_option relaxedAutoImplicit false

namespace FluxCache.Store

open FluxCache.Foundation

/-- What a write writes to: the string of a key, or a field of a hash. -/
inductive Slot
  | string (key : GoString)
  | field (hash key : GoString)
  deriving DecidableEq

/-- The place of a write. -/
def Write.slot : Write → Slot
  | .set key _ => .string key
  | .hset hash key _ => .field hash key

/-- The value of a write. -/
def Write.value : Write → GoString
  | .set _ value => value
  | .hset _ _ value => value

/-- The value at a place. -/
def MapStore.valueAt (s : MapStore) : Slot → Option GoString
  | .string key => s.strings.lookup key
  | .field hash key => (s.hashes.lookup hash).bind fun fields ↦ fields.lookup key

theorem valueAt_apply (s : MapStore) (w : Write) (slot : Slot) :
    (w.apply s).valueAt slot = if w.slot = slot then some w.value else s.valueAt slot := by
  cases w with
  | set key value =>
    cases slot with
    | field hash field => exact (if_neg nofun).symm
    | string k =>
      show (s.strings.insert key value).lookup k = _
      by_cases hk : key = k
      · rw [hk, Finmap.lookup_insert]
        exact (if_pos rfl).symm
      · rw [Finmap.lookup_insert_of_ne _ (Ne.symm hk)]
        exact (if_neg fun heq ↦ hk (Slot.string.inj heq)).symm
  | hset hash key value =>
    cases slot with
    | string k => exact (if_neg nofun).symm
    | field h f =>
      show ((hashSet s.hashes hash key value).lookup h).bind (fun fields ↦ fields.lookup f) = _
      by_cases hh : hash = h
      · subst hh
        rw [hashSet, Finmap.lookup_insert, Option.bind_some]
        by_cases hf : key = f
        · rw [hf, Finmap.lookup_insert]
          exact (if_pos rfl).symm
        · rw [Finmap.lookup_insert_of_ne _ (Ne.symm hf)]
          refine Eq.trans ?_ (if_neg fun heq ↦ hf (Slot.field.inj heq).2).symm
          rw [MapStore.valueAt]
          cases s.hashes.lookup hash with
          | none => exact Finmap.lookup_empty f
          | some fields => rfl
      · rw [hashSet, Finmap.lookup_insert_of_ne _ (Ne.symm hh)]
        exact (if_neg fun heq ↦ hh (Slot.field.inj heq).1).symm

theorem valueAt_new (slot : Slot) : MapStore.new.valueAt slot = none := by
  cases slot <;> rfl

/-! ### Lists of writes -/

/-- Writes to a store, one after another. -/
def writeAll {σ : Type} [StoreInterface σ] (s : σ) (writes : List Write) : σ :=
  writes.foldl Write.apply s

theorem writeAll_append {σ : Type} [StoreInterface σ] (s : σ) (first second : List Write) :
    writeAll s (first ++ second) = writeAll (writeAll s first) second :=
  List.foldl_append

/-- The last write at a place decides, and where there is none the store is as before. -/
theorem valueAt_writeAll_or (s : MapStore) (writes : List Write) (slot : Slot) :
    (writeAll s writes).valueAt slot =
      ((writeAll MapStore.new writes).valueAt slot).or (s.valueAt slot) := by
  induction writes using List.reverseRecOn with
  | nil =>
    show s.valueAt slot = (MapStore.new.valueAt slot).or (s.valueAt slot)
    rw [valueAt_new, Option.none_or]
  | append_singleton writes w ih =>
    rw [writeAll_append, writeAll_append]
    show (w.apply (writeAll s writes)).valueAt slot =
      ((w.apply (writeAll MapStore.new writes)).valueAt slot).or _
    rw [valueAt_apply, valueAt_apply]
    by_cases hslot : w.slot = slot
    · rw [if_pos hslot, if_pos hslot, Option.some_or]
    · rw [if_neg hslot, if_neg hslot, ih]

/-- Nothing is at a place exactly if nothing was there and nothing was written there. -/
theorem valueAt_writeAll_eq_none_iff {s : MapStore} {writes : List Write} {slot : Slot} :
    (writeAll s writes).valueAt slot = none ↔
      s.valueAt slot = none ∧ ∀ w ∈ writes, w.slot ≠ slot := by
  induction writes generalizing s with
  | nil => simp [writeAll]
  | cons w writes ih =>
    show (writeAll (w.apply s) writes).valueAt slot = none ↔ _
    rw [ih, valueAt_apply, List.forall_mem_cons]
    by_cases hslot : w.slot = slot
    · simp [hslot]
    · simp [hslot]

/-- A value in a store that was empty was written there. -/
theorem exists_write_of_valueAt {writes : List Write} {slot : Slot} {value : GoString}
    (hvalue : (writeAll MapStore.new writes).valueAt slot = some value) :
    ∃ w ∈ writes, w.slot = slot ∧ w.value = value := by
  induction writes using List.reverseRecOn with
  | nil =>
    rw [writeAll, List.foldl_nil, valueAt_new] at hvalue
    cases hvalue
  | append_singleton writes w ih =>
    rw [writeAll_append] at hvalue
    have hlast := (valueAt_apply (writeAll MapStore.new writes) w slot).symm.trans hvalue
    by_cases hslot : w.slot = slot
    · rw [if_pos hslot] at hlast
      exact ⟨w, List.mem_append_right _ (List.mem_singleton_self w), hslot, Option.some.inj hlast⟩
    · rw [if_neg hslot] at hlast
      obtain ⟨other, hother, heq⟩ := ih hlast
      exact ⟨other, List.mem_append_left _ hother, heq⟩

/-- Assumes: writes that a store already has. They rebuild it at the places that are written. -/
theorem valueAt_writeAll_of_consistent {s : MapStore} {writes : List Write}
    (hwrites : ∀ w ∈ writes, s.valueAt w.slot = some w.value) {slot : Slot}
    (hslot : ∃ w ∈ writes, w.slot = slot) :
    (writeAll MapStore.new writes).valueAt slot = s.valueAt slot := by
  induction writes using List.reverseRecOn with
  | nil => exact absurd hslot (by simp)
  | append_singleton writes w ih =>
    obtain ⟨hothers, hw⟩ := List.forall_mem_append.mp hwrites
    rw [writeAll_append]
    show (w.apply (writeAll MapStore.new writes)).valueAt slot = _
    rw [valueAt_apply]
    by_cases hlast : w.slot = slot
    · rw [if_pos hlast, ← hlast, List.forall_mem_singleton.mp hw]
    · rw [if_neg hlast]
      refine ih hothers ?_
      obtain ⟨other, hmem, heq⟩ := hslot
      rcases List.mem_append.mp hmem with hmem | hmem
      · exact ⟨other, hmem, heq⟩
      · exact absurd (List.mem_singleton.mp hmem ▸ heq) hlast

/-! ### Equality -/

/-- No hash is empty. -/
def MapStore.NoEmptyHash (s : MapStore) : Prop :=
  ∀ hash fields, s.hashes.lookup hash = some fields → fields ≠ ∅

theorem MapStore.NoEmptyHash.apply {s : MapStore} (hs : s.NoEmptyHash) (w : Write) :
    (w.apply s).NoEmptyHash := by
  cases w with
  | set key value => exact hs
  | hset hash key value =>
    intro h fields hlookup hempty
    have hinsert : (hashSet s.hashes hash key value).lookup h = some fields := hlookup
    by_cases hh : h = hash
    · rw [hh, hashSet, Finmap.lookup_insert] at hinsert
      have hmem := Option.some.inj hinsert
      rw [hempty] at hmem
      have hkey := congrArg (Finmap.lookup key) hmem
      rw [Finmap.lookup_insert, Finmap.lookup_empty] at hkey
      exact absurd hkey nofun
    · rw [hashSet, Finmap.lookup_insert_of_ne _ hh] at hinsert
      exact hs h fields hinsert hempty

theorem MapStore.NoEmptyHash.writeAll {s : MapStore} (hs : s.NoEmptyHash) (writes : List Write) :
    (Store.writeAll s writes).NoEmptyHash := by
  induction writes generalizing s with
  | nil => exact hs
  | cons w writes ih => exact ih (hs.apply w)

theorem noEmptyHash_new : MapStore.new.NoEmptyHash := by
  intro hash fields hlookup
  exact absurd hlookup (by simp [MapStore.new])

theorem noEmptyHash_writeAll (writes : List Write) :
    (writeAll MapStore.new writes).NoEmptyHash :=
  noEmptyHash_new.writeAll writes

theorem exists_field_of_ne_empty {fields : GoMap GoString} (hfields : fields ≠ ∅) :
    ∃ key value, fields.lookup key = some value := by
  by_contra hnone
  refine hfields (Finmap.ext_lookup fun key ↦ ?_)
  rw [Finmap.lookup_empty]
  by_contra hsome
  obtain ⟨value, hvalue⟩ := Option.ne_none_iff_exists'.mp hsome
  exact hnone ⟨key, value, hvalue⟩

/-- Stores without empty hashes that have the same values are equal. -/
theorem MapStore.eq_of_valueAt {s t : MapStore} (hs : s.NoEmptyHash) (ht : t.NoEmptyHash)
    (h : ∀ slot, s.valueAt slot = t.valueAt slot) : s = t := by
  have hhash {s t : MapStore} (hs : s.NoEmptyHash) (h : ∀ slot, s.valueAt slot = t.valueAt slot)
      (hash : GoString) (hnone : t.hashes.lookup hash = none) : s.hashes.lookup hash = none := by
    by_contra hsome
    obtain ⟨fields, hfields⟩ := Option.ne_none_iff_exists'.mp hsome
    obtain ⟨key, value, hvalue⟩ := exists_field_of_ne_empty (hs hash fields hfields)
    have hslot := h (.field hash key)
    simp only [valueAt, hfields, hnone, Option.bind_some, Option.bind_none, hvalue] at hslot
    exact absurd hslot nofun
  refine MapStore.ext (Finmap.ext_lookup fun key ↦ h (.string key))
    (Finmap.ext_lookup fun hash ↦ ?_)
  cases hfields : t.hashes.lookup hash with
  | none => exact hhash hs h hash hfields
  | some fields =>
    have hsome : s.hashes.lookup hash ≠ none := by
      intro hnone
      have hmissing := hhash ht (fun slot ↦ (h slot).symm) hash hnone
      exact Option.some_ne_none fields (hfields.symm.trans hmissing)
    obtain ⟨others, hothers⟩ := Option.ne_none_iff_exists'.mp hsome
    rw [hothers]
    refine congrArg some (Finmap.ext_lookup fun key ↦ ?_)
    have hslot := h (.field hash key)
    simpa only [valueAt, hfields, hothers, Option.bind_some] using hslot

/-- A write makes no difference to the writes after it exactly if the store has its value already or
one of them is at its place. -/
theorem writeAll_cons_eq_iff {s : MapStore} (hs : s.NoEmptyHash) {w : Write}
    {writes : List Write} :
    writeAll s (w :: writes) = writeAll s writes ↔
      s.valueAt w.slot = some w.value ∨ ∃ other ∈ writes, other.slot = w.slot := by
  have hcons (slot : Slot) : (writeAll s (w :: writes)).valueAt slot =
      ((writeAll MapStore.new writes).valueAt slot).or ((w.apply s).valueAt slot) :=
    valueAt_writeAll_or (w.apply s) writes slot
  constructor
  · intro heq
    by_cases hother : ∃ other ∈ writes, other.slot = w.slot
    · exact Or.inr hother
    · have hnone : (writeAll MapStore.new writes).valueAt w.slot = none :=
        valueAt_writeAll_eq_none_iff.mpr
          ⟨valueAt_new _, fun other hmem hslot ↦ hother ⟨other, hmem, hslot⟩⟩
      have hvalue := hcons w.slot
      rw [heq, valueAt_writeAll_or, hnone, Option.none_or, Option.none_or, valueAt_apply,
        if_pos rfl] at hvalue
      exact Or.inl hvalue
  · intro h
    refine MapStore.eq_of_valueAt (hs.writeAll _) (hs.writeAll _) fun slot ↦ ?_
    rw [hcons, valueAt_writeAll_or s writes slot, valueAt_apply]
    by_cases hslot : w.slot = slot
    · subst hslot
      rcases h with hvalue | ⟨other, hmem, hslot⟩
      · rw [if_pos rfl, hvalue]
      · have hsome : (writeAll MapStore.new writes).valueAt w.slot ≠ none := fun hnone ↦
          (valueAt_writeAll_eq_none_iff.mp hnone).2 other hmem hslot
        obtain ⟨value, hvalue⟩ := Option.ne_none_iff_exists'.mp hsome
        rw [hvalue, Option.some_or, Option.some_or]
    · rw [if_neg hslot]

end FluxCache.Store
