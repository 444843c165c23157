import FluxCache.Foundation.Runtime
import Mathlib.Data.Nat.Digits.Defs

/-!
# Decimal numbers as text

`itoa` prints an integer in decimal. `parseInt` reads a signed 64-bit integer in decimal, with an
optional sign; it fails with `syntaxError` on anything that is no digit and with `rangeError` on a
number that does not fit. What `itoa` prints of a 64-bit integer is read back (`parseInt_itoa`), and
it consists of digits after an optional minus sign (`isDigit_of_mem_itoa`).
-/

set_option autoImplicit false
set_option relaxedAutoImplicit false

namespace FluxCache.Foundation

/-- The reasons for which a text is no number. -/
inductive NumError
  | syntaxError
  | rangeError
  deriving DecidableEq, Repr

/-- The byte of a digit. -/
def digitByte (d : ℕ) : UInt8 := UInt8.ofNat (48 + d)

/-- The value of the byte of a digit. -/
def digitValue (b : UInt8) : Option ℕ := if 48 ≤ b ∧ b ≤ 57 then some (b.toNat - 48) else none

/-- A natural number in decimal. -/
def formatNat (n : ℕ) : GoString :=
  if n = 0 then [48] else (Nat.digits 10 n).reverse.map digitByte

/-- `strconv.Itoa`. -/
def itoa (n : ℤ) : GoString := if n < 0 then 45 :: formatNat n.natAbs else formatNat n.natAbs

/-- The loop of `strconv.ParseUint` in base 10, with the number read so far. -/
def parseDigits : ℕ → GoString → Except NumError ℕ
  | n, [] => .ok n
  | n, b :: rest =>
    match digitValue b with
    | none => .error .syntaxError
    | some d => if n * 10 + d < 2 ^ 64 then parseDigits (n * 10 + d) rest else .error .rangeError

/-- `strconv.ParseUint` in base 10 for 64 bits. -/
def parseUint (s : GoString) : Except NumError ℕ :=
  if s = [] then .error .syntaxError else parseDigits 0 s

/-- The end of `strconv.ParseInt`: a number with a sign has to fit in 64 bits. -/
def signed (negative : Bool) (n : ℕ) : Except NumError ℤ :=
  if negative then if 2 ^ 63 < n then .error .rangeError else .ok (-n)
  else if 2 ^ 63 ≤ n then .error .rangeError else .ok n

/-- `strconv.ParseInt` in base 10 for 64 bits. -/
def parseInt (s : GoString) : Except NumError ℤ :=
  match s with
  | [] => .error .syntaxError
  | first :: rest => do
    let n ← parseUint (if first = 43 ∨ first = 45 then rest else s)
    signed (first = 45) n

/-! ### Reading back what was printed -/

theorem digitValue_digitByte : ∀ d < 10, digitValue (digitByte d) = some d := by decide

/-- The bytes of the ten digits. -/
def IsDigit (b : UInt8) : Prop := 48 ≤ b ∧ b ≤ 57

theorem isDigit_digitByte : ∀ d < 10, IsDigit (digitByte d) := by
  unfold IsDigit
  decide

theorem isDigit_of_mem_formatNat {n : ℕ} {b : UInt8} (hb : b ∈ formatNat n) : IsDigit b := by
  unfold formatNat at hb
  by_cases hn : n = 0
  · rw [if_pos hn, List.mem_singleton] at hb
    rw [hb]
    exact isDigit_digitByte 0 (by decide)
  · rw [if_neg hn] at hb
    obtain ⟨d, hd, rfl⟩ := List.mem_map.mp hb
    exact isDigit_digitByte d (Nat.digits_lt_base (by decide) (List.mem_reverse.mp hd))

theorem formatNat_ne_nil (n : ℕ) : formatNat n ≠ [] := by
  unfold formatNat
  by_cases hn : n = 0
  · rw [if_pos hn]
    exact List.cons_ne_nil _ _
  · rw [if_neg hn]
    simp [Nat.digits_ne_nil_iff_ne_zero.mpr hn]

/-- What is printed has no bytes but digits and the minus sign. -/
theorem isDigit_of_mem_itoa {n : ℤ} {b : UInt8} (hb : b ∈ itoa n) : b = 45 ∨ IsDigit b := by
  unfold itoa at hb
  by_cases hn : n < 0
  · rw [if_pos hn] at hb
    exact (List.mem_cons.mp hb).imp_right isDigit_of_mem_formatNat
  · rw [if_neg hn] at hb
    exact Or.inr (isDigit_of_mem_formatNat hb)

/-- The number that a sequence of digits continues, most significant digit first. -/
def continued (n : ℕ) (ds : List ℕ) : ℕ := ds.foldl (fun n d ↦ n * 10 + d) n

theorem le_continued (n : ℕ) (ds : List ℕ) : n ≤ continued n ds := by
  induction ds generalizing n with
  | nil => exact le_rfl
  | cons d ds ih =>
    refine le_trans ?_ (ih (n * 10 + d))
    omega

theorem parseDigits_map {n : ℕ} {ds : List ℕ} (hds : ∀ d ∈ ds, d < 10)
    (hbound : continued n ds < 2 ^ 64) :
    parseDigits n (ds.map digitByte) = .ok (continued n ds) := by
  induction ds generalizing n with
  | nil => rfl
  | cons d ds ih =>
    have hnext : n * 10 + d < 2 ^ 64 := (le_continued (n * 10 + d) ds).trans_lt hbound
    rw [List.map_cons, parseDigits, digitValue_digitByte d (hds d List.mem_cons_self)]
    simp only [if_pos hnext]
    exact ih (fun d' hd' ↦ hds d' (List.mem_cons_of_mem d hd')) hbound

theorem continued_digits (n : ℕ) : continued 0 (Nat.digits 10 n).reverse = n := by
  have hfold : continued 0 (Nat.digits 10 n).reverse = Nat.ofDigits 10 (Nat.digits 10 n) := by
    rw [continued, List.foldl_reverse, Nat.ofDigits_eq_foldr]
    congr 1
    funext d m
    simp [Nat.mul_comm, Nat.add_comm]
  rw [hfold, Nat.ofDigits_digits]

theorem parseUint_formatNat {n : ℕ} (hn : n < 2 ^ 64) : parseUint (formatNat n) = .ok n := by
  rw [parseUint, if_neg (formatNat_ne_nil n), formatNat]
  by_cases hzero : n = 0
  · rw [if_pos hzero, hzero]
    decide
  · rw [if_neg hzero, parseDigits_map, continued_digits]
    · intro d hd
      exact Nat.digits_lt_base (by decide) (List.mem_reverse.mp hd)
    · rw [continued_digits]
      exact hn

/-- Every 64-bit integer is read back. -/
theorem parseInt_itoa {n : ℤ} (hlow : -2 ^ 63 ≤ n) (hhigh : n < 2 ^ 63) :
    parseInt (itoa n) = .ok n := by
  have hbound : n.natAbs < 2 ^ 64 := by omega
  unfold itoa
  by_cases hn : n < 0
  · rw [if_pos hn]
    have hparse : parseInt (45 :: formatNat n.natAbs) =
        parseUint (formatNat n.natAbs) >>= signed true := rfl
    rw [hparse, parseUint_formatNat hbound]
    show signed true n.natAbs = .ok n
    rw [signed, if_pos rfl, if_neg (by omega)]
    congr 1
    omega
  · rw [if_neg hn]
    cases hformat : formatNat n.natAbs with
    | nil => exact absurd hformat (formatNat_ne_nil _)
    | cons first rest =>
      have hfirst : IsDigit first := by
        refine @isDigit_of_mem_formatNat n.natAbs first ?_
        rw [hformat]
        exact List.mem_cons_self
      have hplus : first ≠ 43 := by
        rintro rfl
        exact absurd hfirst.1 (by decide)
      have hminus : first ≠ 45 := by
        rintro rfl
        exact absurd hfirst.1 (by decide)
      have hparse : parseInt (first :: rest) = parseUint (first :: rest) >>= signed false := by
        simp only [parseInt, hplus, hminus, or_self, if_false, decide_false]
      rw [hparse, ← hformat, parseUint_formatNat hbound]
      show signed false n.natAbs = .ok n
      rw [signed, if_neg (by decide), if_neg (by omega)]
      congr 1
      omega

/-! ### What is read -/

theorem isDigit_of_parseDigits {n m : ℕ} {s : GoString} (h : parseDigits n s = .ok m) :
    ∀ b ∈ s, IsDigit b := by
  induction s generalizing n with
  | nil => exact fun _ hb ↦ absurd hb List.not_mem_nil
  | cons b rest ih =>
    rw [parseDigits, digitValue] at h
    by_cases hb : 48 ≤ b ∧ b ≤ 57
    · rw [if_pos hb] at h
      dsimp only at h
      split at h
      · exact List.forall_mem_cons.mpr ⟨hb, ih h⟩
      · exact absurd h nofun
    · rw [if_neg hb] at h
      exact absurd h nofun

/-- A number that is read is a sign, if there is one, and at least one digit. -/
theorem exists_of_parseInt {s : GoString} {n : ℤ} (h : parseInt s = .ok n) :
    ∃ sign digits m, s = sign ++ digits ∧ sign.length ≤ 1 ∧ digits ≠ [] ∧
      (∀ b ∈ digits, IsDigit b) ∧ signed (sign = [45]) m = .ok n := by
  have hdigits {digits : GoString} {m : ℕ} (hparse : parseUint digits = .ok m) :
      digits ≠ [] ∧ ∀ b ∈ digits, IsDigit b := by
    unfold parseUint at hparse
    by_cases hnil : digits = []
    · rw [if_pos hnil] at hparse
      exact absurd hparse nofun
    · rw [if_neg hnil] at hparse
      exact ⟨hnil, isDigit_of_parseDigits hparse⟩
  cases s with
  | nil => exact absurd h nofun
  | cons first rest =>
    obtain ⟨m, hparse, hsigned⟩ := bind_eq_ok_iff.mp h
    by_cases hsign : first = 43 ∨ first = 45
    · rw [if_pos hsign] at hparse
      obtain ⟨hne, hall⟩ := hdigits hparse
      refine ⟨[first], rest, m, rfl, le_refl _, hne, hall, ?_⟩
      rw [← hsigned]
      simp
    · rw [if_neg hsign] at hparse
      obtain ⟨hne, hall⟩ := hdigits hparse
      refine ⟨[], first :: rest, m, rfl, Nat.zero_le _, hne, hall, ?_⟩
      rw [← hsigned]
      simp [(not_or.mp hsign).2]

theorem bounds_of_signed {negative : Bool} {m : ℕ} {n : ℤ} (h : signed negative m = .ok n) :
    n < 2 ^ 63 ∧ (negative = false → 0 ≤ n) := by
  unfold signed at h
  cases negative with
  | true =>
    rw [if_pos rfl] at h
    split at h
    · exact absurd h nofun
    · rw [← Except.ok.inj h]
      exact ⟨by omega, nofun⟩
  | false =>
    rw [if_neg Bool.false_ne_true] at h
    split at h
    · exact absurd h nofun
    · rw [← Except.ok.inj h]
      exact ⟨by omega, fun _ ↦ Int.natCast_nonneg m⟩

end FluxCache.Foundation
