import Mathlib.Data.List.Basic

/-!
# Cut sequences of records

Items are written as records, one behind another, and of what was written only the first elements
remain. `completed` are the items whose records remain as a whole, and `leftover` is what remains
behind these records: nothing, or the beginning of the record of the next item (`leftover_cases`).
That item is `torn`, if something remains of its record. Records that are not empty are at most as
many as their elements (`length_le_length_flatMap`).
-/

set_option autoImplicit false
set_option relaxedAutoImplicit false

namespace FluxCache.Foundation

section Cut

variable {α β : Type*} (record : α → List β)

theorem length_le_length_flatMap {items : List α} (hrecord : ∀ a ∈ items, record a ≠ []) :
    items.length ≤ (items.flatMap record).length := by
  induction items with
  | nil => exact Nat.le_refl 0
  | cons a items ih =>
    obtain ⟨ha, hothers⟩ := List.forall_mem_cons.mp hrecord
    rw [List.flatMap_cons, List.length_append, List.length_cons, Nat.add_comm]
    exact Nat.add_le_add (List.length_pos_of_ne_nil ha) (ih hothers)

/-- The items whose records lie within the first `n` elements. -/
def completed : List α → ℕ → List α
  | [], _ => []
  | a :: items, n =>
    if (record a).length ≤ n then a :: completed items (n - (record a).length) else []

/-- What the first `n` elements hold behind the records of the completed items. -/
def leftover : List α → ℕ → List β
  | [], _ => []
  | a :: items, n =>
    if (record a).length ≤ n then leftover items (n - (record a).length) else (record a).take n

/-- The item whose record is cut off, and how many elements remain of it, if any. -/
def torn : List α → ℕ → Option (α × ℕ)
  | [], _ => none
  | a :: items, n =>
    if (record a).length ≤ n then torn items (n - (record a).length)
    else if n = 0 then none
    else some (a, n)

theorem leftover_eq_torn (items : List α) (n : ℕ) :
    leftover record items n =
      (torn record items n).elim [] fun cut ↦ (record cut.1).take cut.2 := by
  induction items generalizing n with
  | nil => rfl
  | cons a items ih =>
    rw [leftover, torn]
    by_cases ha : (record a).length ≤ n
    · rw [if_pos ha, if_pos ha, ih]
    · rw [if_neg ha, if_neg ha]
      by_cases hn : n = 0
      · rw [if_pos hn, hn, List.take_zero]
        rfl
      · rw [if_neg hn]
        rfl

/-- Of the item that is cut off something remains, and something does not. -/
theorem torn_spec {items : List α} {n k : ℕ} {a : α} (htorn : torn record items n = some (a, k)) :
    a ∈ items ∧ k ≠ 0 ∧ k < (record a).length := by
  induction items generalizing n with
  | nil => cases htorn
  | cons b items ih =>
    rw [torn] at htorn
    by_cases hb : (record b).length ≤ n
    · rw [if_pos hb] at htorn
      obtain ⟨hmem, hk⟩ := ih htorn
      exact ⟨List.mem_cons_of_mem b hmem, hk⟩
    · rw [if_neg hb] at htorn
      by_cases hn : n = 0
      · rw [if_pos hn] at htorn
        cases htorn
      · rw [if_neg hn] at htorn
        obtain ⟨rfl, rfl⟩ := Prod.mk.inj (Option.some.inj htorn)
        exact ⟨List.mem_cons_self, hn, Nat.lt_of_not_le hb⟩

theorem take_flatMap_record (items : List α) (n : ℕ) :
    (items.flatMap record).take n =
      (completed record items n).flatMap record ++ leftover record items n := by
  induction items generalizing n with
  | nil => exact List.take_nil
  | cons a items ih =>
    rw [List.flatMap_cons, List.take_append, completed, leftover]
    by_cases ha : (record a).length ≤ n
    · rw [if_pos ha, if_pos ha, List.take_of_length_le ha, ih, List.flatMap_cons,
        List.append_assoc]
    · have hnone : n - (record a).length = 0 := Nat.sub_eq_zero_of_le (Nat.le_of_not_le ha)
      rw [if_neg ha, if_neg ha, hnone, List.take_zero, List.append_nil]
      rfl

/-- Either all items are completed, or the rest is the beginning of the next record. -/
theorem leftover_cases (items : List α) (n : ℕ) :
    (completed record items n = items ∧ leftover record items n = []) ∨
      ∃ a rest k, items = completed record items n ++ a :: rest ∧ k < (record a).length ∧
        leftover record items n = (record a).take k := by
  induction items generalizing n with
  | nil => exact Or.inl ⟨rfl, rfl⟩
  | cons a items ih =>
    rw [completed, leftover]
    by_cases ha : (record a).length ≤ n
    · rw [if_pos ha, if_pos ha]
      rcases ih (n - (record a).length) with ⟨hall, hnone⟩ | ⟨b, rest, k, hitems, hk, hrest⟩
      · exact Or.inl ⟨congrArg (a :: ·) hall, hnone⟩
      · exact Or.inr ⟨b, rest, k, congrArg (a :: ·) hitems, hk, hrest⟩
    · rw [if_neg ha, if_neg ha]
      exact Or.inr ⟨a, items, n, rfl, Nat.lt_of_not_le ha, rfl⟩

theorem isPrefix_completed (items : List α) (n : ℕ) : completed record items n <+: items := by
  rcases leftover_cases record items n with ⟨hall, -⟩ | ⟨a, rest, -, hitems, -⟩
  · exact ⟨[], (List.append_nil _).trans hall⟩
  · exact ⟨a :: rest, hitems.symm⟩

/-- The completed items are all the first items whose records lie within the cut. -/
theorem isPrefix_completed_of_le {items front : List α} {n : ℕ} (hfront : front <+: items)
    (hn : (front.flatMap record).length ≤ n) : front <+: completed record items n := by
  induction items generalizing front n with
  | nil => rwa [completed]
  | cons a items ih =>
    cases front with
    | nil => exact List.nil_prefix
    | cons b front =>
      obtain ⟨rfl, hrest⟩ := List.cons_prefix_cons.mp hfront
      rw [List.flatMap_cons, List.length_append] at hn
      rw [completed, if_pos (Nat.le_of_add_right_le hn)]
      exact (List.prefix_cons_inj b).mpr (ih hrest (Nat.le_sub_of_add_le' hn))

/-- A cut before the end falls into the record of an item. -/
theorem exists_cut {items : List α} {n : ℕ} (hn : n < (items.flatMap record).length) :
    ∃ front a rest k, items = front ++ a :: rest ∧ k < (record a).length ∧
      n = (front.flatMap record).length + k ∧
      (items.flatMap record).take n = front.flatMap record ++ (record a).take k := by
  have htake := take_flatMap_record record items n
  rcases leftover_cases record items n with ⟨hall, hnone⟩ | ⟨a, rest, k, hitems, hk, hrest⟩
  · have hlength := congrArg List.length htake
    rw [hall, hnone, List.append_nil, List.length_take_of_le (Nat.le_of_lt hn)] at hlength
    exact absurd hlength (Nat.ne_of_lt hn)
  · rw [hrest] at htake
    have hlength := congrArg List.length htake
    rw [List.length_take_of_le (Nat.le_of_lt hn), List.length_append,
      List.length_take_of_le (Nat.le_of_lt hk)] at hlength
    exact ⟨_, a, rest, k, hitems, hk, hlength, htake⟩

end Cut

end FluxCache.Foundation
