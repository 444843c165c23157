import Mathlib.Data.List.TakeWhile
import Mathlib.Tactic.Common

/-!
# Binary search in a slice

The library search `sort.Search n f` halves the interval `[i, j)` until it is empty: it moves `i`
past the middle when `f` fails there and `j` down to the middle when `f` holds. When `f` never
goes back from true to false the result is the first index at which `f` holds, or `n`.

`searchSlice p slice` is the search for the first element satisfying `p`. A slice on which `p`
switches at most once is a front part on which `p` fails followed by a back part on which it holds
(`exists_split_of_pairwise`), and the search returns the length of the front part
(`searchSlice_append`).
-/

set_option autoImplicit false
set_option relaxedAutoImplicit false

namespace FluxCache.Foundation

/-- The loop of the binary search on the interval `[i, j)`. -/
def searchFrom (f : ℕ → Bool) (i j : ℕ) : ℕ :=
  if i < j then
    if f ((i + j) / 2) then searchFrom f i ((i + j) / 2)
    else searchFrom f ((i + j) / 2 + 1) j
  else i
termination_by j - i

/-- The binary search over the indices below `n`. -/
def search (n : ℕ) (f : ℕ → Bool) : ℕ := searchFrom f 0 n

/-- Assumes: `f` fails below `cut` and holds from `cut` on inside `[i, j)`, and `cut` lies in
`[i, j]`. The loop returns `cut`. -/
theorem searchFrom_eq {f : ℕ → Bool} {cut : ℕ} (i j : ℕ) (hi : i ≤ cut) (hj : cut ≤ j)
    (hbelow : ∀ k, i ≤ k → k < cut → f k = false)
    (habove : ∀ k, cut ≤ k → k < j → f k = true) : searchFrom f i j = cut := by
  induction i, j using searchFrom.induct f with
  | case1 i j hlt hmid ih =>
    rw [searchFrom, if_pos hlt, if_pos hmid]
    have hcut : cut ≤ (i + j) / 2 := by
      by_contra hgt
      rw [hbelow _ (by omega) (by omega)] at hmid
      exact absurd hmid Bool.false_ne_true
    exact ih hi hcut hbelow fun k hk hkj ↦ habove k hk (by omega)
  | case2 i j hlt hmid ih =>
    rw [searchFrom, if_pos hlt, if_neg hmid]
    have hcut : (i + j) / 2 < cut := by
      by_contra hle
      exact hmid (habove _ (by omega) (by omega))
    exact ih (by omega) hj (fun k hk hkc ↦ hbelow k (by omega) hkc) habove
  | case3 i j hge =>
    rw [searchFrom, if_neg hge]
    omega

section Slices

variable {α : Type}

/-- The search for the first element of a slice that satisfies `p`. -/
def searchSlice (p : α → Bool) (slice : List α) : ℕ :=
  search slice.length fun i ↦ (slice[i]?).any p

/-- Assumes: `p` fails on the front part and holds on the back part. The search returns the length
of the front part. -/
theorem searchSlice_append {p : α → Bool} {front back : List α}
    (hfront : ∀ a ∈ front, p a = false) (hback : ∀ a ∈ back, p a = true) :
    searchSlice p (front ++ back) = front.length := by
  refine searchFrom_eq 0 _ (Nat.zero_le _) (by simp) ?_ ?_
  · intro k _ hk
    rw [List.getElem?_append_left hk, List.getElem?_eq_getElem hk, Option.any_some]
    exact hfront _ (List.getElem_mem hk)
  · intro k hk hlength
    rw [List.length_append] at hlength
    have hbound : k - front.length < back.length := by omega
    rw [List.getElem?_append_right hk, List.getElem?_eq_getElem hbound, Option.any_some]
    exact hback _ (List.getElem_mem hbound)

/-- Assumes: along the slice `p` never goes back from true to false. The slice is a front part on
which `p` fails followed by a back part on which it holds. -/
theorem exists_split_of_pairwise {p : α → Bool} {slice : List α}
    (hmono : slice.Pairwise fun a b ↦ p a = true → p b = true) :
    ∃ front back, slice = front ++ back ∧ (∀ a ∈ front, p a = false) ∧
      ∀ a ∈ back, p a = true := by
  induction slice with
  | nil => exact ⟨[], [], rfl, by simp, by simp⟩
  | cons a rest ih =>
    obtain ⟨hhead, htail⟩ := List.pairwise_cons.mp hmono
    by_cases ha : p a = true
    · refine ⟨[], a :: rest, rfl, by simp, fun b hb ↦ ?_⟩
      rcases List.mem_cons.mp hb with rfl | hb
      · exact ha
      · exact hhead b hb ha
    · obtain ⟨front, back, rfl, hfront, hback⟩ := ih htail
      refine ⟨a :: front, back, rfl, fun b hb ↦ ?_, hback⟩
      rcases List.mem_cons.mp hb with rfl | hb
      · simpa using ha
      · exact hfront b hb

end Slices

end FluxCache.Foundation
