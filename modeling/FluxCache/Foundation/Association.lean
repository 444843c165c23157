import Mathlib.Data.List.Nodup
import Mathlib.Order.Nat

/-!
# Parallel slices

A table that keeps its keys in one slice and its values in another is a list of rows read through
its two projections. Searching the keys for the first position of a key and taking the value there
is the lookup in the rows (`lookup_split`). Inserting, replacing and removing a row are all
described by one equation about the rows around it (`lookup_append_cons`).
-/

set_option autoImplicit false
set_option relaxedAutoImplicit false

namespace FluxCache.Foundation

section Projections

variable {κ α : Type}

/-- Two slices of one length are the projections of a list of rows. -/
theorem exists_rows {keys : List κ} {values : List α} (h : keys.length = values.length) :
    ∃ rows : List (κ × α), keys = rows.map Prod.fst ∧ values = rows.map Prod.snd :=
  ⟨keys.zip values, (List.map_fst_zip h.le).symm, (List.map_snd_zip h.ge).symm⟩

theorem zip_projections (rows : List (κ × α)) :
    (rows.map Prod.fst).zip (rows.map Prod.snd) = rows := by
  rw [List.zip_map', List.map_id'']
  exact fun _ ↦ rfl

end Projections

variable {κ α : Type} [DecidableEq κ] {rows front back : List (κ × α)} {b k : κ} {c : α}

theorem lookup_eq_none_iff_notMem : rows.lookup b = none ↔ b ∉ rows.map Prod.fst := by
  rw [List.lookup_eq_none_iff, List.mem_map]
  constructor
  · rintro h ⟨row, hrow, heq⟩
    exact absurd heq.symm (bne_iff_ne.mp (h row hrow))
  · intro h row hrow
    exact bne_iff_ne.mpr fun heq ↦ h ⟨row, hrow, heq.symm⟩

/-- A key that the rows hold splits them at its first row, whose position is the first position of
the key among the keys. -/
theorem lookup_split (rows : List (κ × α)) (b : κ) :
    (rows.lookup b = none ∧ (rows.map Prod.fst).idxOf? b = none) ∨
      ∃ front c back, rows = front ++ (b, c) :: back ∧ front.lookup b = none ∧
        (rows.map Prod.fst).idxOf? b = some front.length := by
  induction rows with
  | nil => exact Or.inl ⟨rfl, rfl⟩
  | cons row rows ih =>
    by_cases hrow : row.1 = b
    · refine Or.inr ⟨[], row.2, rows, ?_, rfl, ?_⟩
      · rw [← hrow, List.nil_append]
      · simp [List.idxOf?_cons, hrow]
    · rcases ih with ⟨hnone, hidx⟩ | ⟨front, c, back, hsplit, hfront, hidx⟩
      · refine Or.inl ⟨?_, ?_⟩
        · rw [List.lookup_eq_none_iff] at hnone ⊢
          simpa [Ne.symm hrow] using hnone
        · simp [List.idxOf?_cons, hrow, hidx]
      · refine Or.inr ⟨row :: front, c, back, ?_, ?_, ?_⟩
        · rw [hsplit, List.cons_append]
        · rw [List.lookup_eq_none_iff] at hfront ⊢
          simpa [Ne.symm hrow] using hfront
        · simp [List.idxOf?_cons, hrow, hidx]

/-- Assumes: rows before `(b, c)` that do not hold `b`. -/
theorem lookup_append_cons (hfront : front.lookup b = none) (k : κ) :
    (front ++ (b, c) :: back).lookup k = if k = b then some c else (front ++ back).lookup k := by
  rw [List.lookup_append, List.lookup_append]
  by_cases hk : k = b
  · rw [if_pos hk, hk, hfront, List.lookup_cons_self, Option.none_or]
  · have hne : (k == b) = false := beq_eq_false_iff_ne.mpr hk
    rw [if_neg hk, List.lookup_cons, hne]

/-- Inserting a row for a key that the rows do not hold. -/
theorem lookup_insert (hb : rows.lookup b = none) (i : ℕ) (k : κ) :
    (rows.take i ++ (b, c) :: rows.drop i).lookup k =
      if k = b then some c else rows.lookup k := by
  have hfront : (rows.take i).lookup b = none := by
    rw [lookup_eq_none_iff_notMem] at hb ⊢
    exact fun hmem ↦ hb ((List.take_sublist i rows).map Prod.fst |>.subset hmem)
  rw [lookup_append_cons hfront, List.take_append_drop]

/-- The rows of a table that holds no key twice are what the lookup finds. -/
theorem mem_iff_lookup (hnodup : (rows.map Prod.fst).Nodup) :
    (b, c) ∈ rows ↔ rows.lookup b = some c := by
  constructor
  · intro hmem
    obtain ⟨front, back, rfl⟩ := List.append_of_mem hmem
    rw [List.map_append, List.map_cons, List.nodup_middle, List.nodup_cons] at hnodup
    have hfront : front.lookup b = none := by
      rw [lookup_eq_none_iff_notMem]
      exact fun h ↦ hnodup.1 (List.mem_append_left _ h)
    rw [lookup_append_cons hfront, if_pos rfl]
  · intro hlookup
    obtain ⟨front, back, rfl, -⟩ := List.lookup_eq_some_iff.mp hlookup
    simp

/-- Removing the row of a key that the rows hold once. -/
theorem lookup_remove (hnodup : ((front ++ (b, c) :: back).map Prod.fst).Nodup) (k : κ) :
    (front ++ back).lookup k = if k = b then none else (front ++ (b, c) :: back).lookup k := by
  rw [List.map_append, List.map_cons, List.nodup_middle, List.nodup_cons] at hnodup
  have hfront : front.lookup b = none := by
    rw [lookup_eq_none_iff_notMem]
    exact fun hmem ↦ hnodup.1 (List.mem_append_left _ hmem)
  by_cases hk : k = b
  · rw [if_pos hk, hk, lookup_eq_none_iff_notMem, List.map_append]
    exact hnodup.1
  · rw [if_neg hk, lookup_append_cons hfront, if_neg hk]

end FluxCache.Foundation
