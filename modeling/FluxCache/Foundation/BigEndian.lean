import FluxCache.Foundation.Runtime

/-!
# Numbers and strings as fields of a record

A number is written as a field of fixed width, most significant byte first; of a number that is too
large only the last digits are written (`toBytes`, `ofBytes_toBytes`). A string is written as a
block: its length as a number and then its bytes (`block`).

The readers `takeBytes`, `takeNumber` and `takeBlock` take a field from the front of the input or
fail where the input is too short. Each is described by one equivalence: it succeeds exactly on the
inputs that start with the field that it returns (`takeBytes_eq_some_iff`, `takeNumber_eq_some_iff`,
`takeBlock_eq_some_iff`). This gives both directions of a round trip at once, and the same holds for
a list of fields (`takeMany_eq_some_iff`).
-/

set_option autoImplicit false
set_option relaxedAutoImplicit false

namespace FluxCache.Foundation

/-! ### Numbers -/

/-- The last digits of a number to the base 256, most significant first. -/
def toBytes : ℕ → ℕ → GoString
  | 0, _ => []
  | width + 1, n => UInt8.ofNat (n / 256 ^ width) :: toBytes width n

/-- The number with given digits to the base 256, most significant first. -/
def ofBytes : GoString → ℕ
  | [] => 0
  | b :: bs => b.toNat * 256 ^ bs.length + ofBytes bs

@[simp] theorem length_toBytes (width n : ℕ) : (toBytes width n).length = width := by
  induction width with
  | zero => rfl
  | succ width ih => rw [toBytes, List.length_cons, ih]

theorem ofBytes_lt (bs : GoString) : ofBytes bs < 256 ^ bs.length := by
  induction bs with
  | nil => exact Nat.one_pos
  | cons b bs ih =>
    have hb : b.toNat + 1 ≤ 256 := b.toNat_lt
    calc ofBytes (b :: bs)
        = b.toNat * 256 ^ bs.length + ofBytes bs := rfl
      _ < b.toNat * 256 ^ bs.length + 256 ^ bs.length := Nat.add_lt_add_left ih _
      _ = (b.toNat + 1) * 256 ^ bs.length := (Nat.succ_mul _ _).symm
      _ ≤ 256 * 256 ^ bs.length := Nat.mul_le_mul_right _ hb
      _ = 256 ^ (b :: bs).length := by rw [List.length_cons, Nat.pow_succ, Nat.mul_comm]

/-- Only the last digits of a number are written. -/
theorem ofBytes_toBytes (width n : ℕ) : ofBytes (toBytes width n) = n % 256 ^ width := by
  induction width with
  | zero => rw [Nat.pow_zero, Nat.mod_one]; rfl
  | succ width ih =>
    rw [toBytes, ofBytes, length_toBytes, ih, Nat.mod_pow_succ, UInt8.toNat_ofNat']
    rw [Nat.add_comm, Nat.mul_comm]

theorem toBytes_add_mul (width n a : ℕ) :
    toBytes width (n + a * 256 ^ width) = toBytes width n := by
  induction width generalizing a with
  | zero => rfl
  | succ width ih =>
    have hpow : a * 256 ^ (width + 1) = a * 256 * 256 ^ width := by
      rw [Nat.pow_succ, Nat.mul_comm (256 ^ width), Nat.mul_assoc]
    have hdigit : UInt8.ofNat ((n + a * 256 * 256 ^ width) / 256 ^ width) =
        UInt8.ofNat (n / 256 ^ width) := by
      rw [Nat.add_mul_div_right _ _ (Nat.pow_pos (by decide))]
      refine UInt8.toNat_inj.mp ?_
      rw [UInt8.toNat_ofNat', UInt8.toNat_ofNat']
      exact Nat.add_mul_mod_self_right _ _ _
    rw [toBytes, toBytes, hpow, ih, hdigit]

theorem toBytes_ofBytes (bs : GoString) : toBytes bs.length (ofBytes bs) = bs := by
  induction bs with
  | nil => rfl
  | cons b bs ih =>
    have hdigit : (b.toNat * 256 ^ bs.length + ofBytes bs) / 256 ^ bs.length = b.toNat := by
      rw [Nat.add_comm, Nat.add_mul_div_right _ _ (Nat.pow_pos (by decide)),
        Nat.div_eq_of_lt (ofBytes_lt bs), Nat.zero_add]
    rw [List.length_cons, toBytes, ofBytes, hdigit, Nat.add_comm, toBytes_add_mul, ih]
    congr 1
    exact UInt8.ofNat_toNat

/-! ### Fields at the front of the input -/

/-- The bytes of a string behind its length. -/
def block (width : ℕ) (s : GoString) : GoString := toBytes width s.length ++ s

/-- Takes a number of bytes. -/
def takeBytes (n : ℕ) (input : GoString) : Option (GoString × GoString) :=
  if input.length < n then none else some (input.take n, input.drop n)

/-- Takes a number that is written with a number of bytes. -/
def takeNumber (width : ℕ) (input : GoString) : Option (ℕ × GoString) := do
  let (bytes, rest) ← takeBytes width input
  return (ofBytes bytes, rest)

/-- Takes the bytes of a string behind its length. -/
def takeBlock (width : ℕ) (input : GoString) : Option (GoString × GoString) := do
  let (n, rest) ← takeNumber width input
  takeBytes n rest

/-- Takes as many fields of one kind as are asked for. -/
def takeMany {α : Type} (take : GoString → Option (α × GoString)) :
    ℕ → GoString → Option (List α × GoString)
  | 0, input => some ([], input)
  | n + 1, input => do
    let (a, rest) ← take input
    let (as, rest) ← takeMany take n rest
    return (a :: as, rest)

theorem takeBytes_eq_some_iff {n : ℕ} {input bytes rest : GoString} :
    takeBytes n input = some (bytes, rest) ↔ bytes.length = n ∧ input = bytes ++ rest := by
  unfold takeBytes
  by_cases hshort : input.length < n
  · rw [if_pos hshort]
    refine ⟨fun h ↦ absurd h (by simp), ?_⟩
    rintro ⟨rfl, rfl⟩
    rw [List.length_append] at hshort
    omega
  · rw [if_neg hshort, Option.some.injEq, Prod.mk.injEq]
    constructor
    · rintro ⟨rfl, rfl⟩
      exact ⟨List.length_take_of_le (Nat.not_lt.mp hshort), (List.take_append_drop n input).symm⟩
    · rintro ⟨rfl, rfl⟩
      exact ⟨List.take_left, List.drop_left⟩

theorem takeNumber_eq_some_iff {width n : ℕ} {input rest : GoString} :
    takeNumber width input = some (n, rest) ↔
      n < 256 ^ width ∧ input = toBytes width n ++ rest := by
  unfold takeNumber
  constructor
  · intro h
    obtain ⟨⟨bytes, rest'⟩, htake, hreturn⟩ := Option.bind_eq_some_iff.mp h
    obtain ⟨rfl, rfl⟩ := Prod.mk.inj (Option.some.inj hreturn)
    obtain ⟨rfl, rfl⟩ := takeBytes_eq_some_iff.mp htake
    exact ⟨ofBytes_lt bytes, by rw [toBytes_ofBytes]⟩
  · rintro ⟨hn, rfl⟩
    have htake : takeBytes width (toBytes width n ++ rest) = some (toBytes width n, rest) :=
      takeBytes_eq_some_iff.mpr ⟨length_toBytes width n, rfl⟩
    rw [htake]
    show some (ofBytes (toBytes width n), rest) = some (n, rest)
    rw [ofBytes_toBytes, Nat.mod_eq_of_lt hn]

theorem takeBlock_eq_some_iff {width : ℕ} {input s rest : GoString} :
    takeBlock width input = some (s, rest) ↔
      s.length < 256 ^ width ∧ input = block width s ++ rest := by
  unfold takeBlock
  constructor
  · intro h
    obtain ⟨⟨n, rest'⟩, hnumber, hbytes⟩ := Option.bind_eq_some_iff.mp h
    obtain ⟨rfl, rfl⟩ := takeBytes_eq_some_iff.mp hbytes
    obtain ⟨hn, rfl⟩ := takeNumber_eq_some_iff.mp hnumber
    exact ⟨hn, by rw [block, List.append_assoc]⟩
  · rintro ⟨hs, rfl⟩
    have hnumber : takeNumber width (block width s ++ rest) = some (s.length, s ++ rest) :=
      takeNumber_eq_some_iff.mpr ⟨hs, by rw [block, List.append_assoc]⟩
    rw [hnumber]
    exact takeBytes_eq_some_iff.mpr ⟨rfl, rfl⟩

/-- Assumes: a reader that succeeds exactly on the inputs that start with a field of a kind. -/
theorem takeMany_eq_some_iff {α : Type} {take : GoString → Option (α × GoString)}
    {write : α → GoString} {Fits : α → Prop}
    (htake : ∀ input a rest, take input = some (a, rest) ↔ Fits a ∧ input = write a ++ rest)
    {n : ℕ} {input rest : GoString} {as : List α} :
    takeMany take n input = some (as, rest) ↔
      as.length = n ∧ (∀ a ∈ as, Fits a) ∧ input = as.flatMap write ++ rest := by
  induction n generalizing input as with
  | zero =>
    rw [takeMany, Option.some.injEq, Prod.mk.injEq, List.length_eq_zero_iff]
    constructor
    · rintro ⟨rfl, rfl⟩
      exact ⟨rfl, by simp, rfl⟩
    · rintro ⟨rfl, -, rfl⟩
      exact ⟨rfl, rfl⟩
  | succ n ih =>
    rw [takeMany]
    constructor
    · intro h
      obtain ⟨⟨a, middle⟩, hfirst, hmore⟩ := Option.bind_eq_some_iff.mp h
      obtain ⟨⟨as', last⟩, hothers, hreturn⟩ := Option.bind_eq_some_iff.mp hmore
      obtain ⟨rfl, rfl⟩ := Prod.mk.inj (Option.some.inj hreturn)
      obtain ⟨hfits, rfl⟩ := (htake _ _ _).mp hfirst
      obtain ⟨rfl, hall, rfl⟩ := ih.mp hothers
      exact ⟨rfl, List.forall_mem_cons.mpr ⟨hfits, hall⟩,
        by rw [List.flatMap_cons, List.append_assoc]⟩
    · rintro ⟨hlength, hall, rfl⟩
      cases as with
      | nil => exact absurd hlength (by simp)
      | cons a as =>
        obtain ⟨hfits, hothers⟩ := List.forall_mem_cons.mp hall
        have hfirst : take ((a :: as).flatMap write ++ rest) =
            some (a, as.flatMap write ++ rest) :=
          (htake _ _ _).mpr ⟨hfits, by rw [List.flatMap_cons, List.append_assoc]⟩
        have hmore := ih.mpr ⟨Nat.succ.inj hlength, hothers, rfl⟩
        exact Option.bind_eq_some_iff.mpr
          ⟨_, hfirst, Option.bind_eq_some_iff.mpr ⟨_, hmore, rfl⟩⟩

end FluxCache.Foundation
