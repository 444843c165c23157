import FluxCache.Configuration.Validate

/-!
# Sizes of memory

A size of memory is a decimal number with a unit behind it, or without one (`Denotes`). What
`parseBytes` takes off the end is the unit (`parseSuffix_append`), so it accepts exactly the texts
of at least two bytes that are sizes, and returns the number times the factor of the unit, cut to 64
bits (`parseBytes_eq_ok_iff`). A minus sign and a product that needs more than 63 bits are not
rejected.
-/

set_option autoImplicit false
set_option relaxedAutoImplicit false

namespace FluxCache.Configuration

open Foundation

/-! ### The units -/

/-- The units with their factors. -/
def sizeUnits : List (GoString × ℤ) :=
  [(text "", 1), (text "K", 2 ^ 10), (text "KB", 2 ^ 10), (text "M", 2 ^ 20), (text "MB", 2 ^ 20),
    (text "G", 2 ^ 30), (text "GB", 2 ^ 30), (text "T", 2 ^ 40), (text "TB", 2 ^ 40)]

/-- A text is a number with a unit of some factor. -/
def Denotes (s : GoString) (n mult : ℤ) : Prop :=
  ∃ number suffix, s = number ++ suffix ∧ parseInt number = .ok n ∧ (suffix, mult) ∈ sizeUnits

theorem mem_sizeUnits_iff {suffix : GoString} {mult : ℤ} :
    (suffix, mult) ∈ sizeUnits ↔ suffix = [] ∧ mult = 1 ∨
      ∃ unit, unitFactor unit = some mult ∧ (suffix = [unit] ∨ suffix = [unit, 66]) := by
  constructor
  · intro hmem
    simp only [sizeUnits, List.mem_cons, Prod.mk.injEq, List.not_mem_nil, or_false] at hmem
    rcases hmem with ⟨rfl, rfl⟩ | ⟨rfl, rfl⟩ | ⟨rfl, rfl⟩ | ⟨rfl, rfl⟩ | ⟨rfl, rfl⟩ | ⟨rfl, rfl⟩ |
      ⟨rfl, rfl⟩ | ⟨rfl, rfl⟩ | ⟨rfl, rfl⟩
    · exact Or.inl ⟨rfl, rfl⟩
    · exact Or.inr ⟨75, rfl, Or.inl rfl⟩
    · exact Or.inr ⟨75, rfl, Or.inr rfl⟩
    · exact Or.inr ⟨77, rfl, Or.inl rfl⟩
    · exact Or.inr ⟨77, rfl, Or.inr rfl⟩
    · exact Or.inr ⟨71, rfl, Or.inl rfl⟩
    · exact Or.inr ⟨71, rfl, Or.inr rfl⟩
    · exact Or.inr ⟨84, rfl, Or.inl rfl⟩
    · exact Or.inr ⟨84, rfl, Or.inr rfl⟩
  · rintro (⟨rfl, rfl⟩ | ⟨unit, hunit, hsuffix⟩)
    · exact List.mem_cons_self
    · have hcases : unit = 75 ∧ mult = 2 ^ 10 ∨ unit = 77 ∧ mult = 2 ^ 20 ∨
          unit = 71 ∧ mult = 2 ^ 30 ∨ unit = 84 ∧ mult = 2 ^ 40 := by
        grind [unitFactor]
      rcases hcases with ⟨rfl, rfl⟩ | ⟨rfl, rfl⟩ | ⟨rfl, rfl⟩ | ⟨rfl, rfl⟩ <;>
        rcases hsuffix with rfl | rfl <;> decide

theorem factor_pos {suffix : GoString} {mult : ℤ} (h : (suffix, mult) ∈ sizeUnits) : 0 < mult := by
  have hall : ∀ unit ∈ sizeUnits, 0 < unit.2 := by decide
  exact hall _ h

theorem unitFactor_of_isDigit {b : UInt8} (hb : IsDigit b) : unitFactor b = none := by
  have hne {unit : UInt8} (hunit : 57 < unit) : b ≠ unit := fun heq ↦
    absurd hb.2 (not_le.mpr (heq ▸ hunit))
  rw [unitFactor, if_neg (hne (by decide)), if_neg (hne (by decide)), if_neg (hne (by decide)),
    if_neg (hne (by decide))]

/-! ### What is taken off the end -/

/-- The last two bytes decide. -/
theorem parseSuffix_concat (front : GoString) (unit last : UInt8) :
    parseSuffix (front ++ [unit, last]) =
      if last = 66 then
        match unitFactor unit with
        | some mult => .ok (2, mult)
        | none => .error (text "unknown suffix")
      else
        match unitFactor last with
        | some mult => .ok (1, mult)
        | none => .ok (0, 1) := by
  rw [parseSuffix, List.reverse_append]
  rfl

theorem exists_concat_of_two_le {s : GoString} (hlength : 2 ≤ s.length) :
    ∃ front unit last, s = front ++ [unit, last] := by
  obtain ⟨init, last, rfl⟩ := (List.eq_nil_or_concat' s).resolve_left fun hnil ↦ by
    rw [hnil] at hlength
    exact absurd hlength (by decide)
  obtain ⟨front, unit, rfl⟩ := (List.eq_nil_or_concat' init).resolve_left fun hnil ↦ by
    rw [hnil] at hlength
    exact absurd hlength (Nat.not_succ_le_self 1)
  exact ⟨front, unit, last, by rw [List.append_assoc]; rfl⟩

/-- Behind a number `parseBytes` finds the unit. -/
theorem parseSuffix_append {number suffix : GoString} {n mult : ℤ}
    (hnumber : parseInt number = .ok n) (hsuffix : (suffix, mult) ∈ sizeUnits)
    (hlength : 2 ≤ (number ++ suffix).length) :
    parseSuffix (number ++ suffix) = .ok (suffix.length, mult) := by
  obtain ⟨sign, digits, -, rfl, -, hdigits, hall, -⟩ := exists_of_parseInt hnumber
  obtain ⟨front, digit, rfl⟩ := (List.eq_nil_or_concat' digits).resolve_left hdigits
  have hdigit : IsDigit digit := hall digit (List.mem_append_right _ (List.mem_singleton.mpr rfl))
  rcases mem_sizeUnits_iff.mp hsuffix with ⟨rfl, rfl⟩ | ⟨unit, hunit, rfl | rfl⟩
  · obtain ⟨rest, before, last, heq⟩ := exists_concat_of_two_le hlength
    have hlast : last = digit := by
      have hgetLast := congrArg List.getLast? heq
      simpa using hgetLast.symm
    have hne : digit ≠ 66 := by
      rintro rfl
      exact absurd hdigit.2 (by decide)
    rw [heq, hlast, parseSuffix_concat, if_neg hne, unitFactor_of_isDigit hdigit]
    rfl
  · have hne : unit ≠ 66 := by
      rintro rfl
      exact absurd hunit nofun
    have heq : sign ++ (front ++ [digit]) ++ [unit] = (sign ++ front) ++ [digit, unit] := by
      simp
    rw [heq, parseSuffix_concat, if_neg hne, hunit]
    rfl
  · rw [parseSuffix_concat, if_pos rfl, hunit]
    rfl

/-- What `parseBytes` takes off the end is a unit. -/
theorem exists_of_parseSuffix {s : GoString} {k : ℕ} {mult : ℤ}
    (h : parseSuffix s = .ok (k, mult)) :
    2 ≤ s.length ∧ ∃ number suffix, s = number ++ suffix ∧ suffix.length = k ∧
      (suffix, mult) ∈ sizeUnits := by
  have hlength : 2 ≤ s.length := by
    by_contra hshort
    unfold parseSuffix at h
    rcases hreverse : s.reverse with _ | ⟨last, _ | ⟨unit, rest⟩⟩
    · rw [hreverse] at h
      exact absurd h nofun
    · rw [hreverse] at h
      exact absurd h nofun
    · refine hshort ?_
      rw [← List.length_reverse, hreverse]
      exact Nat.le_add_left 2 rest.length
  refine ⟨hlength, ?_⟩
  obtain ⟨front, unit, last, rfl⟩ := exists_concat_of_two_le hlength
  rw [parseSuffix_concat] at h
  by_cases hlast : last = 66
  · rw [if_pos hlast] at h
    cases hunit : unitFactor unit with
    | none =>
      rw [hunit] at h
      exact absurd h nofun
    | some factor =>
      rw [hunit] at h
      obtain ⟨rfl, rfl⟩ := Prod.mk.inj (Except.ok.inj h)
      refine ⟨front, [unit, last], rfl, rfl, mem_sizeUnits_iff.mpr (Or.inr ⟨unit, hunit, ?_⟩)⟩
      exact Or.inr (by rw [hlast])
  · rw [if_neg hlast] at h
    cases hunit : unitFactor last with
    | none =>
      rw [hunit] at h
      obtain ⟨rfl, rfl⟩ := Prod.mk.inj (Except.ok.inj h)
      exact ⟨front ++ [unit, last], [], (List.append_nil _).symm, rfl,
        mem_sizeUnits_iff.mpr (Or.inl ⟨rfl, rfl⟩)⟩
    | some factor =>
      rw [hunit] at h
      obtain ⟨rfl, rfl⟩ := Prod.mk.inj (Except.ok.inj h)
      refine ⟨front ++ [unit], [last], by simp, rfl, ?_⟩
      exact mem_sizeUnits_iff.mpr (Or.inr ⟨last, hunit, Or.inl rfl⟩)

/-! ### What is accepted -/

section Accepted

variable {quote : GoString → GoString} {s : GoString}

theorem take_number (number suffix : GoString) :
    (number ++ suffix).take ((number ++ suffix).length - suffix.length) = number := by
  rw [List.length_append, Nat.add_sub_cancel, List.take_left]

theorem Denotes.unique {n n' mult mult' : ℤ} (h : Denotes s n mult) (h' : Denotes s n' mult')
    (hlength : 2 ≤ s.length) : n' = n ∧ mult' = mult := by
  obtain ⟨number, suffix, rfl, hnumber, hsuffix⟩ := h
  obtain ⟨number', suffix', heq, hnumber', hsuffix'⟩ := h'
  have hfound := parseSuffix_append hnumber hsuffix hlength
  rw [heq] at hlength hfound
  obtain ⟨hsame, hmult⟩ :=
    Prod.mk.inj (Except.ok.inj ((parseSuffix_append hnumber' hsuffix' hlength).symm.trans hfound))
  obtain ⟨rfl, -⟩ := List.append_inj' heq hsame.symm
  exact ⟨Except.ok.inj (hnumber'.symm.trans hnumber), hmult⟩

/-- Exactly the sizes of at least two bytes are accepted. -/
theorem parseBytes_eq_ok_iff {v : ℤ} : parseBytes quote s = .ok v ↔
    2 ≤ s.length ∧ ∃ n mult, Denotes s n mult ∧ v = wrap64 (n * mult) := by
  constructor
  · intro h
    obtain ⟨⟨k, mult⟩, hfound, h⟩ := bind_eq_ok_iff.mp h
    obtain ⟨hlength, number, suffix, rfl, rfl, hsuffix⟩ := exists_of_parseSuffix hfound
    dsimp only at h
    rw [take_number] at h
    by_cases hnil : number = []
    · rw [if_pos hnil] at h
      exact absurd h nofun
    · rw [if_neg hnil] at h
      obtain ⟨n, hnumber, h⟩ := bind_eq_ok_iff.mp h
      have hparsed := mapError_eq_ok_iff.mp hnumber
      exact ⟨hlength, n, mult, ⟨number, suffix, rfl, hparsed, hsuffix⟩, (Except.ok.inj h).symm⟩
  · rintro ⟨hlength, n, mult, ⟨number, suffix, rfl, hnumber, hsuffix⟩, rfl⟩
    have hne : number ≠ [] := by
      rintro rfl
      exact absurd hnumber nofun
    rw [parseBytes, parseSuffix_append hnumber hsuffix hlength]
    refine bind_eq_ok_iff.mpr ⟨_, rfl, ?_⟩
    dsimp only
    rw [take_number, if_neg hne, hnumber]
    rfl

/-- A text of one byte is a size only if it is a digit. -/
theorem Denotes.of_short {n mult : ℤ} (h : Denotes s n mult) (hlength : ¬2 ≤ s.length) :
    0 ≤ n ∧ n * mult < 2 ^ 63 := by
  obtain ⟨number, suffix, rfl, hnumber, hsuffix⟩ := h
  obtain ⟨sign, digits, m, rfl, -, hdigits, -, hsigned⟩ := exists_of_parseInt hnumber
  have hpos := List.length_pos_of_ne_nil hdigits
  rw [List.length_append, List.length_append] at hlength
  have hsign : sign = [] := List.eq_nil_of_length_eq_zero (by omega)
  have hnone : suffix = [] := List.eq_nil_of_length_eq_zero (by omega)
  rw [hsign] at hsigned
  rw [hnone] at hsuffix
  have hmult : mult = 1 := by
    rcases mem_sizeUnits_iff.mp hsuffix with ⟨-, hmult⟩ | ⟨unit, -, hunit | hunit⟩
    · exact hmult
    · exact absurd hunit nofun
    · exact absurd hunit nofun
  obtain ⟨hlt, hnonneg⟩ := bounds_of_signed hsigned
  rw [hmult, mul_one]
  exact ⟨hnonneg (by decide), hlt⟩

theorem wrap64_exact_iff {n mult : ℤ} (hmult : 0 < mult) :
    0 ≤ wrap64 (n * mult) ∧ wrap64 (n * mult) = n * mult ↔ 0 ≤ n ∧ n * mult < 2 ^ 63 := by
  constructor
  · rintro ⟨hnonneg, heq⟩
    rw [heq] at hnonneg
    exact ⟨nonneg_of_mul_nonneg_left hnonneg hmult, (wrap64_eq_self_iff.mp heq).2⟩
  · rintro ⟨hn, hlt⟩
    have hnonneg : 0 ≤ n * mult := mul_nonneg hn hmult.le
    have heq := wrap64_eq_self_iff.mpr ⟨(by decide : (-2 ^ 63 : ℤ) ≤ 0).trans hnonneg, hlt⟩
    exact ⟨heq.symm ▸ hnonneg, heq⟩

end Accepted

/-- A text is rejected, or read as the number in it times the factor of its unit, which is not
negative, exactly if the number in it, if there is one, is not negative and the product is below
2^63. -/
theorem parseBytes_exact_iff (quote : GoString → GoString) (s : GoString) :
    ((∃ err, parseBytes quote s = .error err) ∨
      ∃ v, parseBytes quote s = .ok v ∧ 0 ≤ v ∧ ∃ n mult, Denotes s n mult ∧ v = n * mult) ↔
      ∀ n mult, Denotes s n mult → 0 ≤ n ∧ n * mult < 2 ^ 63 := by
  constructor
  · intro hexact n mult hdenotes
    by_cases hlength : 2 ≤ s.length
    · have hok := (@parseBytes_eq_ok_iff quote s _).mpr ⟨hlength, n, mult, hdenotes, rfl⟩
      rcases hexact with ⟨err, herr⟩ | ⟨v, hv, hnonneg, n', mult', hdenotes', rfl⟩
      · exact absurd (herr.symm.trans hok) nofun
      · obtain ⟨rfl, rfl⟩ := hdenotes.unique hdenotes' hlength
        obtain ⟨-, suffix, -, -, hsuffix⟩ := hdenotes
        have heq := Except.ok.inj (hok.symm.trans hv)
        refine (wrap64_exact_iff (factor_pos hsuffix)).mp ⟨?_, heq⟩
        rw [heq]
        exact hnonneg
    · exact hdenotes.of_short hlength
  · intro hbounds
    cases hparse : parseBytes quote s with
    | error err => exact Or.inl ⟨err, rfl⟩
    | ok v =>
      obtain ⟨-, n, mult, hdenotes, rfl⟩ := parseBytes_eq_ok_iff.mp hparse
      obtain ⟨-, suffix, -, -, hsuffix⟩ := id hdenotes
      obtain ⟨hnonneg, heq⟩ := (wrap64_exact_iff (factor_pos hsuffix)).mpr (hbounds n mult hdenotes)
      exact Or.inr ⟨_, rfl, hnonneg, n, mult, hdenotes, heq⟩

/-- A negative size, and a size of 2^64 bytes, which is read as none. -/
theorem parseBytes_inexact :
    parseBytes id (text "-1K") = .ok (-1024) ∧ parseBytes id (text "16777216T") = .ok 0 := by
  have hnegative : Denotes (text "-1K") (-1) (2 ^ 10) :=
    ⟨text "-1", text "K", by decide, by decide, by decide⟩
  have hlarge : Denotes (text "16777216T") 16777216 (2 ^ 40) :=
    ⟨text "16777216", text "T", by decide, by decide, by decide⟩
  exact ⟨parseBytes_eq_ok_iff.mpr ⟨by decide, _, _, hnegative, by decide⟩,
    parseBytes_eq_ok_iff.mpr ⟨by decide, _, _, hlarge, by decide⟩⟩

end FluxCache.Configuration
