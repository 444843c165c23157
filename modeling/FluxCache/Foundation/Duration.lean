import Mathlib.Algebra.Order.Floor.Ring
import Mathlib.Data.Int.Log
import Mathlib.Data.Rat.Floor
import FluxCache.Foundation.Environment

/-!
# Seconds and durations

A duration is a signed 64-bit number of nanoseconds. A number of seconds is turned into a duration
by a multiplication that wraps (`ofSeconds`). The way back goes through floating-point numbers: the
whole seconds and the quotient of the nanoseconds are added and rounded to 53 bits, and the sum is
cut to an integer (`wholeSeconds`). Floating-point numbers are rationals here, with the rounding
written out (`float64`); the values that occur are far from the bounds of the exponent.
-/

set_option autoImplicit false
set_option relaxedAutoImplicit false

namespace FluxCache.Foundation

/-- An integer cut to 64 bits, with its sign. -/
def wrap64 (n : ℤ) : ℤ := n.bmod (2 ^ 64)

theorem wrap64_bounds (n : ℤ) : -2 ^ 63 ≤ wrap64 n ∧ wrap64 n < 2 ^ 63 :=
  ⟨Int.le_bmod (by decide), Int.bmod_lt (by decide)⟩

/-- An integer is kept exactly if it is a signed 64-bit number. -/
theorem wrap64_eq_self_iff {n : ℤ} : wrap64 n = n ↔ -2 ^ 63 ≤ n ∧ n < 2 ^ 63 := by
  constructor
  · intro heq
    rw [← heq]
    exact wrap64_bounds n
  · rintro ⟨hlow, hhigh⟩
    exact Int.bmod_eq_of_le hlow hhigh

theorem abs_since_le (t u : Time) : |since t u| ≤ 2 ^ 63 :=
  abs_le.mpr ⟨le_max_left _ _, max_le (by decide) ((min_le_left _ _).trans (by decide))⟩

/-- `time.Duration(sec) * time.Second`. -/
def ofSeconds (sec : ℤ) : Duration := wrap64 (sec * 10 ^ 9)

/-- The integer nearest to a rational, and of two nearest ones the even one. -/
def roundEven (q : ℚ) : ℤ :=
  if q - ⌊q⌋ < 1 / 2 ∨ q - ⌊q⌋ = 1 / 2 ∧ ⌊q⌋ % 2 = 0 then ⌊q⌋ else ⌊q⌋ + 1

theorem roundEven_le {q : ℚ} {n : ℤ} (h : q ≤ n) : roundEven q ≤ n := by
  have hfloor : ⌊q⌋ ≤ n := Int.cast_le.mp ((Int.floor_le q).trans h)
  unfold roundEven
  split
  · exact hfloor
  · rename_i hup
    -- A rational that is rounded up is not an integer.
    have hne : ⌊q⌋ ≠ n := by
      rintro rfl
      exact hup (Or.inl (by linarith))
    omega

theorem le_roundEven {q : ℚ} {n : ℤ} (h : n ≤ q) : n ≤ roundEven q := by
  have hfloor : n ≤ ⌊q⌋ := Int.le_floor.mpr h
  unfold roundEven
  split
  · exact hfloor
  · omega

theorem abs_roundEven_le {q : ℚ} {n : ℤ} (h : |q| ≤ n) : |roundEven q| ≤ n := by
  obtain ⟨hlow, hhigh⟩ := abs_le.mp h
  refine abs_le.mpr ⟨le_roundEven ?_, roundEven_le hhigh⟩
  rw [Int.cast_neg]
  exact hlow

/-- The floating-point number of 53 bits nearest to a rational. -/
def float64 (q : ℚ) : ℚ :=
  if q = 0 then 0
  else roundEven (q / 2 ^ (Int.log 2 |q| - 52)) * 2 ^ (Int.log 2 |q| - 52)

/-- A power of two bounds what is rounded as well. -/
theorem abs_float64_le {q : ℚ} {k : ℕ} (h : |q| ≤ 2 ^ k) : |float64 q| ≤ 2 ^ k := by
  unfold float64
  by_cases hq : q = 0
  · rw [if_pos hq, abs_zero]
    positivity
  · rw [if_neg hq]
    have hlog : Int.log 2 |q| ≤ k := by
      refine (Int.log_mono_right (abs_pos.mpr hq) h).trans_eq ?_
      exact_mod_cast Int.log_zpow (R := ℚ) Nat.one_lt_two (k : ℤ)
    obtain ⟨m, hm⟩ : ∃ m : ℕ, (k : ℤ) = m + (Int.log 2 |q| - 52) :=
      ⟨(k - (Int.log 2 |q| - 52)).toNat, by omega⟩
    have hscale : (0 : ℚ) < 2 ^ (Int.log 2 |q| - 52) := zpow_pos two_pos _
    have hpow : (2 : ℚ) ^ k = (2 ^ m : ℤ) * 2 ^ (Int.log 2 |q| - 52) := by
      rw [← zpow_natCast, hm, zpow_add₀ two_ne_zero, zpow_natCast, Int.cast_pow, Int.cast_ofNat]
    rw [hpow] at h ⊢
    rw [abs_mul, abs_of_pos hscale]
    refine mul_le_mul_of_nonneg_right ?_ hscale.le
    rw [← Int.cast_abs]
    refine Int.cast_le.mpr (abs_roundEven_le ?_)
    rw [abs_div, abs_of_pos hscale]
    exact (div_le_iff₀ hscale).mpr h

/-- `Duration.Seconds`. -/
def seconds (d : Duration) : ℚ :=
  float64 (float64 (d.tdiv (10 ^ 9)) + float64 (float64 (d.tmod (10 ^ 9)) / 10 ^ 9))

/-- The conversion of `Duration.Seconds` to an integer. -/
def wholeSeconds (d : Duration) : ℤ := if 0 ≤ seconds d then ⌊seconds d⌋ else ⌈seconds d⌉

theorem abs_tdiv_le {d : Duration} (hd : |d| ≤ 2 ^ 63) : |d.tdiv (10 ^ 9)| ≤ 2 ^ 34 := by
  obtain ⟨hlow, hhigh⟩ := abs_le.mp hd
  refine abs_le.mpr ⟨?_, ?_⟩
  · exact (by decide : (-2 ^ 34 : ℤ) ≤ (-2 ^ 63 : ℤ).tdiv (10 ^ 9)).trans
      (Int.tdiv_le_tdiv (by decide) hlow)
  · exact (Int.tdiv_le_tdiv (by decide) hhigh).trans (by decide)

theorem abs_tmod_le (d : Duration) : |d.tmod (10 ^ 9)| ≤ 10 ^ 9 := by
  have hlow := Int.lt_tmod_of_pos d (by decide : (0 : ℤ) < 10 ^ 9)
  have hhigh := Int.tmod_lt_of_pos d (by decide : (0 : ℤ) < 10 ^ 9)
  exact abs_le.mpr ⟨hlow.le, hhigh.le⟩

/-- The seconds of a 64-bit duration are far from the bounds of 64 bits. -/
theorem abs_seconds_le {d : Duration} (hd : |d| ≤ 2 ^ 63) : |seconds d| ≤ 2 ^ 35 := by
  have hwhole : |float64 (d.tdiv (10 ^ 9))| ≤ 2 ^ 34 := by
    refine abs_float64_le ?_
    exact_mod_cast abs_tdiv_le hd
  have hpart : |float64 (d.tmod (10 ^ 9))| ≤ 2 ^ 30 := by
    refine abs_float64_le ?_
    have hle : |d.tmod (10 ^ 9)| ≤ 2 ^ 30 := (abs_tmod_le d).trans (by decide)
    exact_mod_cast hle
  have hrest : |float64 (float64 (d.tmod (10 ^ 9)) / 10 ^ 9)| ≤ 2 ^ 1 := by
    refine abs_float64_le ?_
    have hbillion : (0 : ℚ) < 10 ^ 9 := by norm_num
    rw [abs_div, abs_of_pos hbillion, div_le_iff₀ hbillion]
    exact hpart.trans (by norm_num)
  refine abs_float64_le ((abs_add_le _ _).trans ((add_le_add hwhole hrest).trans ?_))
  norm_num

theorem abs_wholeSeconds_le {d : Duration} (hd : |d| ≤ 2 ^ 63) : |wholeSeconds d| ≤ 2 ^ 35 := by
  obtain ⟨hlow, hhigh⟩ := abs_le.mp (abs_seconds_le hd)
  unfold wholeSeconds
  split
  · rename_i hnonneg
    rw [abs_of_nonneg (Int.floor_nonneg.mpr hnonneg)]
    exact Int.cast_le.mp ((Int.floor_le _).trans (by exact_mod_cast hhigh))
  · rename_i hneg
    refine abs_le.mpr ⟨?_, ?_⟩
    · refine Int.cast_le (R := ℚ).mp (le_trans ?_ (Int.le_ceil _))
      exact_mod_cast hlow
    · exact (Int.ceil_nonpos.mpr (not_le.mp hneg).le).trans (by decide)

end FluxCache.Foundation
