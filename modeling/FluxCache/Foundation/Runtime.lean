import Mathlib.Data.List.Lex
import Mathlib.Data.Finmap

/-!
# Strings, maps and run-time faults

The values the development computes with. A string is a sequence of bytes compared
lexicographically, with the empty string below every other. A map is a finite map, `Finmap`, so that
two maps are equal exactly when they agree on every key. A call either returns or stops with a
`Fault`: it follows a pointer that is nil, writes to a map that is nil, indexes past the end of a
slice, asks for a slice of negative length or one for which there is no memory, or waits for a mutex
that it holds itself. Loops over
pointers carry a bound on the number of their iterations, and `Fault.exhausted` marks a loop that
the bound has cut short; every result about such a loop shows that the bound is never reached.

One read of a file or of a connection gives at most `maxRW` bytes, however many are asked for.
-/

set_option autoImplicit false
set_option relaxedAutoImplicit false

namespace FluxCache.Foundation

/-- The order of machine bytes, as a linear order on the core comparison. -/
instance linearOrderByte : LinearOrder UInt8 where
  le_refl := UInt8.le_refl
  le_trans := fun _ _ _ hab hbc ↦ UInt8.le_trans hab hbc
  le_antisymm := fun _ _ hab hba ↦ UInt8.le_antisymm hab hba
  le_total := UInt8.le_total
  lt_iff_le_not_ge := fun a b ↦ by
    rw [UInt8.lt_iff_toNat_lt, UInt8.le_iff_toNat_le, UInt8.le_iff_toNat_le]
    omega
  toDecidableLE := inferInstance
  toDecidableEq := inferInstance
  toDecidableLT := inferInstance

/-- The order of machine words, as a linear order on the core comparison. -/
instance linearOrderWord : LinearOrder UInt64 where
  le_refl := UInt64.le_refl
  le_trans := fun _ _ _ hab hbc ↦ UInt64.le_trans hab hbc
  le_antisymm := fun _ _ hab hba ↦ UInt64.le_antisymm hab hba
  le_total := UInt64.le_total
  lt_iff_le_not_ge := fun a b ↦ by
    rw [UInt64.lt_iff_toNat_lt, UInt64.le_iff_toNat_le, UInt64.le_iff_toNat_le]
    omega
  toDecidableLE := inferInstance
  toDecidableEq := inferInstance
  toDecidableLT := inferInstance

/-- A string: a finite sequence of bytes, compared lexicographically. -/
abbrev GoString := List UInt8

/-- The bytes of an ASCII text. -/
def text (s : String) : GoString := s.toList.map fun c ↦ c.toNat.toUInt8

/-- The most bytes that one read of a file or of a connection gives. -/
def maxRW : ℕ := 2 ^ 30

/-- A map with string keys. -/
abbrev GoMap (V : Type) := Finmap fun _ : GoString ↦ V

/-- A map with a function applied to all its values. -/
def mapValues {V W : Type} (f : V → W) (m : GoMap V) : GoMap W :=
  Finmap.keysLookupEquiv.symm ⟨(m.keys, fun k ↦ (m.lookup k).map f), fun k ↦ by
    rw [Option.isSome_map, Finmap.lookup_isSome, Finmap.mem_keys]⟩

@[simp] theorem lookup_mapValues {V W : Type} (f : V → W) (m : GoMap V) (k : GoString) :
    (mapValues f m).lookup k = (m.lookup k).map f := by
  rw [mapValues, Finmap.keysLookupEquiv_symm_apply_lookup]

theorem mapValues_congr {V W : Type} {f g : V → W} {m : GoMap V}
    (h : ∀ k v, m.lookup k = some v → f v = g v) : mapValues f m = mapValues g m := by
  refine Finmap.ext_lookup fun k ↦ ?_
  rw [lookup_mapValues, lookup_mapValues]
  cases hk : m.lookup k with
  | none => rfl
  | some v => rw [Option.map_some, Option.map_some, h k v hk]

theorem mapValues_insert {V W : Type} (f : V → W) (m : GoMap V) (k : GoString) (v : V) :
    mapValues f (m.insert k v) = (mapValues f m).insert k (f v) := by
  refine Finmap.ext_lookup fun k' ↦ ?_
  rw [lookup_mapValues]
  by_cases hk : k' = k
  · rw [hk, Finmap.lookup_insert, Finmap.lookup_insert, Option.map_some]
  · rw [Finmap.lookup_insert_of_ne _ hk, Finmap.lookup_insert_of_ne _ hk, lookup_mapValues]

theorem mapValues_erase {V W : Type} (f : V → W) (m : GoMap V) (k : GoString) :
    mapValues f (m.erase k) = (mapValues f m).erase k := by
  refine Finmap.ext_lookup fun k' ↦ ?_
  rw [lookup_mapValues]
  by_cases hk : k' = k
  · rw [hk, Finmap.lookup_erase, Finmap.lookup_erase, Option.map_none]
  · rw [Finmap.lookup_erase_ne hk, Finmap.lookup_erase_ne hk, lookup_mapValues]

/-- A map with a value written again where it stands is the map. -/
theorem insert_of_lookup {V : Type} {m : GoMap V} {k : GoString} {v : V}
    (h : m.lookup k = some v) : m.insert k v = m := by
  refine Finmap.ext_lookup fun k' ↦ ?_
  by_cases hk : k' = k
  · rw [hk, Finmap.lookup_insert, h]
  · rw [Finmap.lookup_insert_of_ne _ hk]

/-- An entry of a map after an insertion is the new one or was there before. -/
theorem lookup_insert_cases {V : Type} {m : GoMap V} {k k' : GoString} {v v' : V}
    (h : (m.insert k v).lookup k' = some v') : k' = k ∧ v' = v ∨ m.lookup k' = some v' := by
  by_cases hk : k' = k
  · rw [hk, Finmap.lookup_insert] at h
    exact .inl ⟨hk, (Option.some.inj h).symm⟩
  · rw [Finmap.lookup_insert_of_ne _ hk] at h
    exact .inr h

/-- An entry of a map after a removal was there before. -/
theorem lookup_of_lookup_erase {V : Type} {m : GoMap V} {k k' : GoString} {v : V}
    (h : (m.erase k).lookup k' = some v) : m.lookup k' = some v := by
  by_cases hk : k' = k
  · rw [hk, Finmap.lookup_erase] at h
    exact absurd h.symm (Option.some_ne_none v)
  · rwa [Finmap.lookup_erase_ne hk] at h

theorem mem_iff_of_lookup_eq {V : Type} {m m' : GoMap V} {k : GoString}
    (h : m'.lookup k = m.lookup k) : k ∈ m' ↔ k ∈ m := by
  rw [← not_iff_not, ← Finmap.lookup_eq_none, ← Finmap.lookup_eq_none, h]

theorem keys_insert {V : Type} (m : GoMap V) (k : GoString) (v : V) :
    (m.insert k v).keys = insert k m.keys := by
  ext k'
  rw [Finmap.mem_keys, Finmap.mem_insert, Finset.mem_insert, Finmap.mem_keys]

theorem card_keys_insert_le {V : Type} (m : GoMap V) (k : GoString) (v : V) :
    (m.insert k v).keys.card ≤ m.keys.card + 1 := by
  rw [keys_insert]
  exact Finset.card_insert_le k m.keys

/-- A member of a list with one more element at the end is that element or lies before it. -/
theorem append_singleton_eq_split {α : Type} {ops before after : List α} {op other : α}
    (h : ops ++ [op] = before ++ other :: after) :
    (ops = before ∧ op = other ∧ after = []) ∨
      ∃ rest, after = rest ++ [op] ∧ ops = before ++ other :: rest := by
  induction after using List.reverseRecOn with
  | nil =>
    obtain ⟨hops, hop⟩ := List.append_inj' h rfl
    exact Or.inl ⟨hops, List.singleton_inj.mp hop, rfl⟩
  | append_singleton rest last _ =>
    rw [← List.cons_append, ← List.append_assoc] at h
    obtain ⟨hops, hop⟩ := List.append_inj' h rfl
    exact Or.inr ⟨rest, by rw [List.singleton_inj.mp hop], hops⟩

/-- What holds for every member of a list and the members before it, with one more member. -/
theorem forall_split_concat_iff {α : Type} {P : List α → α → Prop} {ops : List α} {last : α} :
    (∀ before op after, ops ++ [last] = before ++ op :: after → P before op) ↔
      (∀ before op after, ops = before ++ op :: after → P before op) ∧ P ops last := by
  constructor
  · intro h
    refine ⟨fun before op after hops ↦ h before op (after ++ [last]) ?_, h ops last [] rfl⟩
    rw [hops, List.append_assoc, List.cons_append]
  · rintro ⟨hops, hlast⟩ before op after hsplit
    rcases append_singleton_eq_split hsplit with ⟨rfl, rfl, -⟩ | ⟨rest, -, hrest⟩
    · exact hlast
    · exact hops before op rest hrest

/-- The ways a call can stop without returning. -/
inductive Fault
  | nilDereference
  | nilMapWrite
  | indexOutOfRange
  | negativeLength
  | outOfMemory
  | selfDeadlock
  | exhausted
  deriving DecidableEq, Repr

/-- The outcome of a call: a value, or the fault that stopped it. -/
abbrev Outcome (α : Type) := Except Fault α

/-- A composed call returns exactly when its two parts do. -/
theorem bind_eq_ok_iff {ε α β : Type} {x : Except ε α} {f : α → Except ε β} {b : β} :
    x >>= f = .ok b ↔ ∃ a, x = .ok a ∧ f a = .ok b := by
  cases x with
  | error fault => simp [bind, Except.bind]
  | ok a => simp [bind, Except.bind]

theorem map_eq_ok_iff {ε α β : Type} {x : Except ε α} {f : α → β} {b : β} :
    x.map f = .ok b ↔ ∃ a, x = .ok a ∧ f a = b := by
  cases x with
  | error err => simp [Except.map]
  | ok a => simp [Except.map]

theorem mapError_eq_ok_iff {ε ε' α : Type} {x : Except ε α} {f : ε → ε'} {a : α} :
    x.mapError f = .ok a ↔ x = .ok a := by
  cases x with
  | error err => simp [Except.mapError]
  | ok a => simp [Except.mapError]

/-- What follows a call that has returned. -/
theorem ok_bind {ε α β : Type} (a : α) (f : α → Except ε β) : (Except.ok a >>= f) = f a := rfl

/-- The two-valued result of a lookup: the value and `true`, or the empty string and `false`. -/
def commaOk : Option GoString → GoString × Bool
  | some value => (value, true)
  | none => ([], false)

theorem commaOk_eq_true_iff {found : Option GoString} {v : GoString} :
    (.ok (commaOk found) : Outcome _) = .ok (v, true) ↔ found = some v := by
  cases found with
  | none => simp [commaOk]
  | some w => simp [commaOk]

theorem commaOk_injective : Function.Injective commaOk := by
  intro found other h
  cases found with
  | none =>
    cases other with
    | none => rfl
    | some value => exact absurd (congrArg Prod.snd h) nofun
  | some value =>
    cases other with
    | none => exact absurd (congrArg Prod.snd h) nofun
    | some value' => exact congrArg some (congrArg Prod.fst h)

/-- The element of a slice at an index; reading past the end is a fault. -/
def index {α : Type} (slice : List α) (i : ℕ) : Outcome α :=
  match slice[i]? with
  | some a => .ok a
  | none => .error .indexOutOfRange

theorem index_eq_ok_iff {α : Type} {slice : List α} {i : ℕ} {a : α} :
    index slice i = .ok a ↔ slice[i]? = some a := by
  unfold index
  cases slice[i]? with
  | none => simp
  | some b => simp

theorem index_eq_ok {α : Type} {slice : List α} {i : ℕ} {a : α} (h : slice[i]? = some a) :
    index slice i = .ok a :=
  index_eq_ok_iff.mpr h

/-- The slice with the element at an index replaced; writing past the end is a fault. -/
def setIndex {α : Type} (slice : List α) (i : ℕ) (a : α) : Outcome (List α) :=
  if i < slice.length then .ok (slice.set i a) else .error .indexOutOfRange

/-- `insertAt`: the slice with `v` at an index, the elements from there on moved up by one. -/
def insertAt {α : Type} (slice : List α) (idx : ℕ) (v : α) : Outcome (List α) :=
  if idx ≤ slice.length then .ok (slice.take idx ++ v :: slice.drop idx)
  else .error .indexOutOfRange

/-- The cell a pointer refers to; following nil is a fault. -/
def deref {α : Type} : Option α → Outcome α
  | some p => .ok p
  | none => .error .nilDereference

/-- `Lock` on a mutex: a call that holds the mutex already waits for itself. -/
def lock (held : Bool) : Outcome Unit :=
  if held then .error .selfDeadlock else .ok ()

/-- Assumes: a loop body that returns on every element. Collecting its results returns. -/
theorem mapM_eq_ok {α β : Type} {body : α → Outcome β} {f : α → β} {slice : List α}
    (hbody : ∀ a ∈ slice, body a = .ok (f a)) : slice.mapM body = .ok (slice.map f) := by
  induction slice with
  | nil => rfl
  | cons a rest ih =>
    rw [List.mapM_cons, hbody a List.mem_cons_self,
      ih fun b hb ↦ hbody b (List.mem_cons_of_mem a hb)]
    rfl

/-- What a loop collects was returned by its body. -/
theorem exists_of_mem_mapM {α β : Type} {body : α → Outcome β} {slice : List α} {out : List β}
    {b : β} (hout : slice.mapM body = .ok out) (hb : b ∈ out) : ∃ a ∈ slice, body a = .ok b := by
  induction slice generalizing out with
  | nil =>
    rw [← Except.ok.inj (show Except.ok [] = Except.ok out from hout)] at hb
    exact absurd hb List.not_mem_nil
  | cons a rest ih =>
    rw [List.mapM_cons] at hout
    obtain ⟨first, hfirst, hout⟩ := bind_eq_ok_iff.mp hout
    obtain ⟨others, hothers, hout⟩ := bind_eq_ok_iff.mp hout
    rw [← Except.ok.inj hout] at hb
    rcases List.mem_cons.mp hb with rfl | hb
    · exact ⟨a, List.mem_cons_self, hfirst⟩
    · obtain ⟨c, hc, hbody⟩ := ih hothers hb
      exact ⟨c, List.mem_cons_of_mem a hc, hbody⟩

/-- Assumes: a loop body that appends to a slice. The loop appends what the body does on every
element. -/
theorem foldlM_append_eq {α β : Type} {body : List β → α → Outcome (List β)} {f : α → List β}
    {slice : List α} (hbody : ∀ a ∈ slice, ∀ out, body out a = .ok (out ++ f a)) (out : List β) :
    slice.foldlM body out = .ok (out ++ slice.flatMap f) := by
  induction slice generalizing out with
  | nil =>
    rw [List.flatMap_nil, List.append_nil]
    rfl
  | cons a rest ih =>
    rw [List.foldlM_cons, hbody a List.mem_cons_self, List.flatMap_cons, ← List.append_assoc]
    exact ih (fun b hb ↦ hbody b (List.mem_cons_of_mem a hb)) _

/-- Assumes: a loop body that returns on every element. The loop returns; what it finds was returned
by the body on some element, and when it finds nothing the body has found nothing anywhere. -/
theorem findSomeM?_spec {α β : Type} {body : α → Outcome (Option β)} {slice : List α}
    (hbody : ∀ a ∈ slice, ∃ found, body a = .ok found) :
    ∃ found, slice.findSomeM? body = .ok found ∧
      (∀ b, found = some b → ∃ a ∈ slice, body a = .ok (some b)) ∧
      (found = none → ∀ a ∈ slice, body a = .ok none) := by
  induction slice with
  | nil => exact ⟨none, rfl, by simp, by simp⟩
  | cons a rest ih =>
    obtain ⟨found, hfound⟩ := hbody a List.mem_cons_self
    cases found with
    | some b =>
      refine ⟨some b, by rw [List.findSomeM?_cons, hfound]; rfl, ?_, by simp⟩
      rintro c ⟨rfl⟩
      exact ⟨a, List.mem_cons_self, hfound⟩
    | none =>
      obtain ⟨found, hrest, hsome, hnone⟩ := ih fun c hc ↦ hbody c (List.mem_cons_of_mem a hc)
      refine ⟨found, by rw [List.findSomeM?_cons, hfound]; exact hrest, ?_, ?_⟩
      · intro b hb
        obtain ⟨c, hc, hcb⟩ := hsome b hb
        exact ⟨c, List.mem_cons_of_mem a hc, hcb⟩
      · intro hfinal c hc
        rcases List.mem_cons.mp hc with rfl | hc
        · exact hfound
        · exact hnone hfinal c hc

/-! ### Upper case -/

/-- The upper case of an ASCII letter; any other byte stays. -/
def upperByte (b : UInt8) : UInt8 := if 97 ≤ b ∧ b ≤ 122 then b - 32 else b

/-- `strings.ToUpper`: an ASCII string is mapped byte by byte, and any other string by
`strings.Map` with the table of upper case letters. -/
def toUpper (mapUpper : GoString → GoString) (s : GoString) : GoString :=
  if s.all fun b ↦ b < 128 then s.map upperByte else mapUpper s

/-- An ASCII string without lower case letters. -/
def IsUpper (s : GoString) : Prop := ∀ b ∈ s, b < 128 ∧ ¬ (97 ≤ b ∧ b ≤ 122)

instance decidableIsUpper (s : GoString) : Decidable (IsUpper s) :=
  List.decidableBAll (fun b ↦ b < 128 ∧ ¬ (97 ≤ b ∧ b ≤ 122)) s

theorem toUpper_eq_self (mapUpper : GoString → GoString) {s : GoString} (hs : IsUpper s) :
    toUpper mapUpper s = s := by
  have hascii : s.all (fun b ↦ b < 128) = true :=
    List.all_eq_true.mpr fun b hb ↦ decide_eq_true (hs b hb).1
  rw [toUpper, if_pos hascii]
  refine (List.map_congr_left fun b hb ↦ ?_).trans (List.map_id s)
  rw [upperByte, if_neg (hs b hb).2]
  rfl

end FluxCache.Foundation
