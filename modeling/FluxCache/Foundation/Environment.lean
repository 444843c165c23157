import Mathlib.Data.Finset.Sort
import Mathlib.Data.Int.ConditionallyCompleteOrder
import Mathlib.Order.ConditionallyCompleteLattice.Basic
import FluxCache.Foundation.Runtime

/-!
# What a program reads from outside

A program reads the clock, ranges over maps whose iteration order is not specified, and draws random
numbers. An `Environment` is one possible sequence of all these answers: the answer to the `i`-th
request of a run, with what the language guarantees about it. The clock never goes back, an
iteration visits every key of the map exactly once, and a draw stays below its bound. A result about
every environment holds for every clock, every iteration order and every random choice. A range over
a map visits its entries, each once, in one of these orders (`Environment.entries`).

Times are nanoseconds as unbounded integers. A difference of two times is a signed 64-bit number
of nanoseconds and saturates at its bounds (`since`).
-/

set_option autoImplicit false
set_option relaxedAutoImplicit false

namespace FluxCache.Foundation

/-- An instant, in nanoseconds. -/
abbrev Time := ℤ

/-- A length of time, in nanoseconds. -/
abbrev Duration := ℤ

/-- The zero value of an instant: the first of January of the year 1. -/
def zeroTime : Time := -62135596800000000000

/-- The difference of two instants, which saturates at the bounds of a signed 64-bit number. -/
def since (t u : Time) : Duration := max (-2 ^ 63) (min (2 ^ 63 - 1) (t - u))

theorem since_nonpos {t u : Time} (h : t ≤ u) : since t u ≤ 0 :=
  max_le (by decide) ((min_le_right _ _).trans (Int.sub_nonpos_of_le h))

/-- The answers a run gets from outside, each to the request with its number. -/
structure Environment where
  now : ℕ → Time
  monotone_now : Monotone now
  order : ℕ → Finset GoString → List GoString
  nodup_order : ∀ i keys, (order i keys).Nodup
  mem_order : ∀ i keys k, k ∈ order i keys ↔ k ∈ keys
  draw : ℕ → ℕ → ℕ
  draw_lt : ∀ i bound, 0 < bound → draw i bound < bound

theorem Environment.length_order (env : Environment) (i : ℕ) (keys : Finset GoString) :
    (env.order i keys).length = keys.card := by
  have hkeys : (env.order i keys).toFinset = keys := by
    ext key
    rw [List.mem_toFinset, env.mem_order]
  rw [← List.toFinset_card_of_nodup (env.nodup_order i keys), hkeys]

/-! ### Ranges over maps -/

/-- The entries of a map in the order of an iteration. -/
def Environment.entries {V : Type} (env : Environment) (i : ℕ) (m : GoMap V) :
    List (GoString × V) :=
  (env.order i m.keys).filterMap fun key ↦ (m.lookup key).map (Prod.mk key)

section Entries

variable {V : Type} {env : Environment} {i : ℕ} {m : GoMap V}

theorem mem_entries_iff {key : GoString} {value : V} :
    (key, value) ∈ env.entries i m ↔ m.lookup key = some value := by
  simp only [Environment.entries, List.mem_filterMap, Option.map_eq_some_iff, Prod.mk.injEq]
  constructor
  · rintro ⟨_, -, _, hlookup, rfl, rfl⟩
    exact hlookup
  · intro hlookup
    refine ⟨key, (env.mem_order i m.keys key).mpr ?_, value, hlookup, rfl, rfl⟩
    exact Finmap.mem_keys.mpr (Finmap.mem_of_lookup_eq_some hlookup)

theorem length_entries (env : Environment) (i : ℕ) (m : GoMap V) :
    (env.entries i m).length = m.keys.card := by
  have hall : ∀ key ∈ env.order i m.keys, ((m.lookup key).map (Prod.mk key)).isSome = true := by
    intro key hkey
    obtain ⟨value, hvalue⟩ :=
      Finmap.mem_iff.mp (Finmap.mem_keys.mp ((env.mem_order i m.keys key).mp hkey))
    rw [hvalue]
    rfl
  rw [Environment.entries, List.filterMap_length_eq_length.mpr hall, env.length_order]

/-- A range over a map visits no key twice. -/
theorem nodup_keys_entries (env : Environment) (i : ℕ) (m : GoMap V) :
    ((env.entries i m).map Prod.fst).Nodup := by
  have hsublist : ((env.entries i m).map Prod.fst).Sublist (env.order i m.keys) := by
    unfold Environment.entries
    induction env.order i m.keys with
    | nil => exact List.Sublist.refl []
    | cons key keys ih =>
      rw [List.filterMap_cons]
      cases m.lookup key with
      | none => exact ih.cons key
      | some value => exact ih.cons_cons key
  exact (env.nodup_order i m.keys).sublist hsublist

/-- A loop over a map that treats every entry apart does to each key what it does with the entry of
the key. Assumes: a turn changes what is seen at its own key only. -/
theorem foldl_entries {S X : Type} (view : S → GoString → X) (apply : X → V → X)
    {step : S → GoString × V → S}
    (hself : ∀ s key value, view (step s (key, value)) key = apply (view s key) value)
    (hother : ∀ s key entry, key ≠ entry.1 → view (step s entry) key = view s key)
    (env : Environment) (i : ℕ) (m : GoMap V) (s : S) (key : GoString) :
    view ((env.entries i m).foldl step s) key =
      (m.lookup key).elim (view s key) (apply (view s key)) := by
  have hskip : ∀ entries : List (GoString × V), key ∉ entries.map Prod.fst → ∀ s,
      view (entries.foldl step s) key = view s key := by
    intro entries hkey
    induction entries with
    | nil => exact fun _ ↦ rfl
    | cons entry entries ih =>
      intro s
      rw [List.map_cons, List.mem_cons, not_or] at hkey
      rw [List.foldl_cons, ih hkey.2, hother s key entry hkey.1]
  cases hlookup : m.lookup key with
  | none =>
    refine hskip _ (fun hmem ↦ ?_) s
    obtain ⟨⟨_, value⟩, hentry, rfl⟩ := List.mem_map.mp hmem
    rw [mem_entries_iff, hlookup] at hentry
    exact absurd hentry (by simp)
  | some value =>
    -- No other entry has this key, so only one turn of the loop is seen there.
    obtain ⟨before, after, hsplit⟩ := List.append_of_mem (mem_entries_iff.mpr hlookup)
    have hnodup := nodup_keys_entries env i m
    rw [hsplit, List.map_append, List.map_cons, List.nodup_middle, List.nodup_cons,
      List.mem_append, not_or] at hnodup
    rw [hsplit, List.foldl_append, List.foldl_cons, hskip after hnodup.1.2, hself,
      hskip before hnodup.1.1]
    rfl

theorem entries_empty (env : Environment) (i : ℕ) : env.entries i (∅ : GoMap V) = [] := by
  rw [← List.length_eq_zero_iff, length_entries]
  rfl

theorem entries_eq_nil_iff : env.entries i m = [] ↔ m = ∅ := by
  constructor
  · intro hnil
    refine Finmap.ext_lookup fun key ↦ ?_
    rw [Finmap.lookup_empty]
    by_contra hsome
    obtain ⟨value, hvalue⟩ := Option.ne_none_iff_exists'.mp hsome
    exact List.not_mem_nil (hnil ▸ mem_entries_iff.mpr hvalue)
  · rintro rfl
    exact entries_empty env i

theorem entries_singleton (env : Environment) (i : ℕ) (key : GoString) (value : V) :
    env.entries i ((∅ : GoMap V).insert key value) = [(key, value)] := by
  have hlength : (env.entries i ((∅ : GoMap V).insert key value)).length = 1 := by
    rw [length_entries]
    rfl
  have hmem : (key, value) ∈ env.entries i ((∅ : GoMap V).insert key value) :=
    mem_entries_iff.mpr (Finmap.lookup_insert _)
  obtain ⟨entry, hentry⟩ := List.length_eq_one_iff.mp hlength
  rw [hentry] at hmem ⊢
  rw [List.mem_singleton.mp hmem]

end Entries

/-! ### A standard environment -/

/-- The keys of a map in increasing order. -/
def increasing (keys : Finset GoString) : List GoString :=
  Quotient.liftOn keys.val (List.insertionSort (· ≤ ·)) fun l₁ l₂ hperm ↦
    List.Perm.eq_of_pairwise (fun _ _ _ _ ↦ le_antisymm) (List.pairwise_insertionSort _ l₁)
      (List.pairwise_insertionSort _ l₂)
      ((List.perm_insertionSort _ l₁).trans (hperm.trans (List.perm_insertionSort _ l₂).symm))

theorem coe_increasing (keys : Finset GoString) :
    (increasing keys : Multiset GoString) = keys.val := by
  rcases keys with ⟨keys, hnodup⟩
  induction keys using Quotient.inductionOn with
  | h l => exact Multiset.coe_eq_coe.mpr (List.perm_insertionSort _ l)

/-- The environment of a clock that orders all iterations by key and draws only zeros. -/
def Environment.ofClock (now : ℕ → Time) (monotone_now : Monotone now) : Environment where
  now := now
  monotone_now := monotone_now
  order := fun _ keys ↦ increasing keys
  nodup_order := fun _ keys ↦ by
    rw [← Multiset.coe_nodup, coe_increasing]
    exact keys.nodup
  mem_order := fun _ keys k ↦ by
    rw [← Multiset.mem_coe, coe_increasing]
    rfl
  draw := fun _ _ ↦ 0
  draw_lt := fun _ _ h ↦ h

/-- The standard environment of a clock that stands still. -/
def stillClock : Environment := .ofClock (fun _ ↦ 0) monotone_const

/-- The environment in which a key comes first in every iteration that visits it, and all draws are
zero. -/
def Environment.first (env : Environment) (key : GoString) : Environment where
  now := env.now
  monotone_now := env.monotone_now
  order := fun i keys ↦
    if key ∈ keys then key :: (env.order i keys).erase key else env.order i keys
  nodup_order := fun i keys ↦ by
    split
    · exact List.nodup_cons.mpr ⟨(env.nodup_order i keys).not_mem_erase,
        (env.nodup_order i keys).erase key⟩
    · exact env.nodup_order i keys
  mem_order := fun i keys k ↦ by
    split
    next hkey =>
      rw [List.mem_cons, (env.nodup_order i keys).mem_erase_iff, env.mem_order]
      by_cases hk : k = key
      · simp [hk, hkey]
      · simp [hk]
    · exact env.mem_order i keys k
  draw := fun _ _ ↦ 0
  draw_lt := fun _ _ h ↦ h

theorem Environment.order_first (env : Environment) {key : GoString} (i : ℕ)
    {keys : Finset GoString} (hkey : key ∈ keys) :
    (env.first key).order i keys = key :: (env.order i keys).erase key :=
  if_pos hkey

/-- The environment in which each iteration has the order that is given for it, as far as that is an
order of the keys of the map. -/
def Environment.arrange (env : Environment) (orders : ℕ → List GoString) : Environment where
  now := env.now
  monotone_now := env.monotone_now
  order := fun i keys ↦
    if (orders i).Nodup ∧ (orders i).toFinset = keys then orders i else env.order i keys
  nodup_order := fun i keys ↦ by
    split
    next horder => exact horder.1
    · exact env.nodup_order i keys
  mem_order := fun i keys k ↦ by
    split
    next horder => rw [← horder.2, List.mem_toFinset]
    · exact env.mem_order i keys k
  draw := env.draw
  draw_lt := env.draw_lt

/-- Every order of the entries of a map is that of some iteration. -/
theorem entries_arrange {V : Type} (env : Environment) {orders : ℕ → List GoString} {i : ℕ}
    {m : GoMap V} {entries : List (GoString × V)} (hnodup : (entries.map Prod.fst).Nodup)
    (hmem : ∀ key value, (key, value) ∈ entries ↔ m.lookup key = some value)
    (horder : orders i = entries.map Prod.fst) : (env.arrange orders).entries i m = entries := by
  have hkeys : (orders i).toFinset = m.keys := by
    ext key
    rw [List.mem_toFinset, horder, List.mem_map, Finmap.mem_keys, Finmap.mem_iff]
    constructor
    · rintro ⟨⟨key, value⟩, hentry, rfl⟩
      exact ⟨value, (hmem key value).mp hentry⟩
    · rintro ⟨value, hvalue⟩
      exact ⟨(key, value), (hmem key value).mpr hvalue, rfl⟩
  have harranged : (env.arrange orders).order i m.keys = entries.map Prod.fst :=
    (if_pos ⟨horder ▸ hnodup, hkeys⟩).trans horder
  rw [Environment.entries, harranged, List.filterMap_map]
  refine (List.filterMap_congr fun entry hentry ↦ ?_).trans List.filterMap_some
  show (m.lookup entry.1).map (Prod.mk entry.1) = some entry
  rw [(hmem entry.1 entry.2).mp hentry]
  rfl

/-- The entries of a map can be put in an order that begins with a given one and goes on by the
lengths of the keys. -/
theorem exists_entries_first {V : Type} {m : GoMap V} {key : GoString} {value : V}
    (hlookup : m.lookup key = some value) :
    ∃ others : List (GoString × V), (((key, value) :: others).map Prod.fst).Nodup ∧
      (∀ k v, (k, v) ∈ (key, value) :: others ↔ m.lookup k = some v) ∧
      others.Pairwise fun p q ↦ p.1.length ≤ q.1.length := by
  let shorter (p q : GoString × V) : Bool := decide (p.1.length ≤ q.1.length)
  obtain ⟨before, after, hsplit⟩ :=
    List.append_of_mem ((@mem_entries_iff V stillClock 0 m key value).mpr hlookup)
  have hperm : ((key, value) :: (before ++ after).mergeSort shorter).Perm
      (stillClock.entries 0 m) := by
    rw [hsplit]
    exact ((List.mergeSort_perm _ shorter).cons _).trans List.perm_middle.symm
  refine ⟨(before ++ after).mergeSort shorter, ?_, fun k v ↦ ?_, ?_⟩
  · exact ((hperm.map Prod.fst).nodup_iff).mpr (nodup_keys_entries stillClock 0 m)
  · rw [hperm.mem_iff, mem_entries_iff]
  · have htrans : ∀ p q r, shorter p q = true → shorter q r = true → shorter p r = true := by
      intro p q r hpq hqr
      exact decide_eq_true ((of_decide_eq_true hpq).trans (of_decide_eq_true hqr))
    have htotal : ∀ p q, (shorter p q || shorter q p) = true := by
      intro p q
      rw [Bool.or_eq_true]
      exact (Nat.le_total p.1.length q.1.length).imp decide_eq_true decide_eq_true
    exact (List.pairwise_mergeSort htrans htotal _).imp of_decide_eq_true

/-- The standard environment of a clock that moves between any two readings. -/
def tickingClock : Environment := .ofClock (fun i ↦ i) fun _ _ h ↦ Int.ofNat_le.mpr h

end FluxCache.Foundation
