import FluxCache.Foundation.Truncation
import Mathlib.Data.List.Nodup
import Mathlib.Data.List.Perm.Subperm

/-!
# Strings that one read does not give

A string of more than `maxRW` bytes is written as a whole, but the read that should give it gives
only the first ones. The bytes behind these are taken for zeros, and they stay in the input. So
nothing is ever found but strings with zeros in these places (`zeroTail_readBlock`), and a string
with such a tail is found, but its tail is then in front of everything that follows
(`readBlock_long_block`).

What is read behind zeros is never what was written there: a number is found smaller, and so a
string shorter, unless it is zero or empty (`readNumber_behind`, `readBlock_behind`). Pairs of
strings that were written in order of the lengths of their keys are therefore not found behind
zeros, except for the pair of two empty strings (`pairs_behind`). A pair with a long string that is
found together with all pairs behind it is thus the last one but for that pair (`pairs_of_long`),
and conversely such a pair is found wherever only zeros follow (`pairsOf_of_trailing`).
-/

set_option autoImplicit false
set_option relaxedAutoImplicit false

namespace FluxCache.Foundation

/-! ### Tails of zeros -/

/-- All bytes that one read does not give are zeros. -/
def ZeroTail (s : GoString) : Prop := s.drop maxRW = zeros (s.length - maxRW)

theorem zeroTail_nil : ZeroTail [] := rfl

theorem zeroTail_append_zeros {front : GoString} (hfront : front.length ≤ maxRW) (n : ℕ) :
    ZeroTail (front ++ zeros n) := by
  rw [ZeroTail, List.drop_append, List.drop_of_length_le hfront, drop_zeros, List.nil_append,
    List.length_append, length_zeros]
  exact congrArg zeros (by omega)

/-- A string that is not empty comes with one read behind its length. -/
theorem readBlock_cases (width : ℕ) (input : GoString) :
    (readBlock width input).1 = [] ∨
      ∃ n rest, readNumber width input = some (n, rest) ∧ readBlock width input = fill n rest := by
  rw [readBlock]
  rcases readNumber width input with _ | ⟨n, rest⟩
  · exact .inl rfl
  · by_cases hzero : n = 0
    · exact .inl (by simp only [if_pos hzero])
    · by_cases hend : rest = []
      · exact .inl (by simp only [if_neg hzero, readInto, if_pos hend])
      · exact .inr ⟨n, rest, rfl, by simp only [if_neg hzero, readInto, if_neg hend]⟩

/-- Only strings with a tail of zeros are found. -/
theorem zeroTail_readBlock (width : ℕ) (input : GoString) : ZeroTail (readBlock width input).1 := by
  rcases readBlock_cases width input with hempty | ⟨n, rest, -, hread⟩
  · rw [hempty]
    exact zeroTail_nil
  · rw [hread]
    refine zeroTail_append_zeros ?_ _
    rw [List.length_take, List.length_take]
    omega

section Width

variable {width : ℕ} (hwidth : width ≠ 0 ∧ width ≤ maxRW)

include hwidth

/-- A long string with a tail of zeros is found, and its tail stays in the input. -/
theorem readBlock_long_block {s : GoString} (hs : s.length < 256 ^ width) (hlong : maxRW < s.length)
    (hzero : ZeroTail s) (rest : GoString) :
    readBlock width (block width s ++ rest) = (s, zeros (s.length - maxRW) ++ rest) := by
  have hne : s ≠ [] := List.ne_nil_of_length_pos (Nat.zero_lt_of_lt hlong)
  have htake : (s.take maxRW).length = maxRW := List.length_take_of_le hlong.le
  rw [block, List.append_assoc, readBlock_long hwidth.2 (length_toBytes width s.length)
    (List.append_ne_nil_of_left_ne_nil hne rest), ofBytes_toBytes, Nat.mod_eq_of_lt hs, fill,
    Nat.min_eq_right hlong.le, List.take_append_of_le_length hlong.le,
    List.drop_append_of_le_length hlong.le, padded, htake,
    List.take_of_length_le (htake.trans_le hlong.le), hzero, ← hzero, List.take_append_drop]

/-! ### Numbers and strings behind zeros -/

/-- A number behind zeros is found smaller, unless it is zero. -/
theorem readNumber_behind {n t : ℕ} (hn : n < 256 ^ width) (ht : 0 < t) (rest : GoString) :
    (∃ n' rest', readNumber width (zeros t ++ (toBytes width n ++ rest)) = some (n', rest') ∧
        n' < n) ∨
      n = 0 ∧
        readNumber width (zeros t ++ (toBytes width n ++ rest)) = some (0, zeros t ++ rest) := by
  by_cases hzero : n = 0
  · have hswap : zeros t ++ (toBytes width n ++ rest) = toBytes width 0 ++ (zeros t ++ rest) := by
      rw [hzero, toBytes_zero, ← List.append_assoc, ← List.append_assoc, zeros_append, zeros_append,
        Nat.add_comm]
    rw [hswap]
    exact .inr ⟨hzero, readNumber_toBytes hwidth (hzero ▸ hn) _⟩
  · have hne : zeros t ++ (toBytes width n ++ rest) ≠ [] :=
      List.append_ne_nil_of_left_ne_nil (zeros_ne_nil ht.ne') _
    refine .inl ⟨_, _, by
      rw [readNumber, readInto, if_neg hne, fill_of_le hwidth.2, Option.map_some, Prod.map_apply],
      ?_⟩
    -- The last digits of the number are cut off, one at least.
    have hlength : width ≤ (zeros t ++ toBytes width n).length := by
      rw [List.length_append, length_toBytes]
      exact Nat.le_add_left _ _
    have hpadded : padded width (zeros t ++ (toBytes width n ++ rest)) =
        zeros (min width t) ++ (toBytes width n).take (width - t) := by
      rw [← List.append_assoc, padded_of_le hlength, padded, Nat.sub_eq_zero_of_le hlength,
        List.take_append, take_zeros, length_zeros]
      exact List.append_nil _
    have hdigits : ofBytes ((toBytes width n).take (width - t)) *
        256 ^ ((toBytes width n).drop (width - t)).length +
          ofBytes ((toBytes width n).drop (width - t)) = n := by
      rw [← ofBytes_append, List.take_append_drop, ofBytes_toBytes, Nat.mod_eq_of_lt hn]
    have hcut : 256 ^ 1 ≤ 256 ^ ((toBytes width n).drop (width - t)).length := by
      refine Nat.pow_le_pow_right (by decide) ?_
      rw [List.length_drop, length_toBytes]
      have hpos := Nat.pos_of_ne_zero hwidth.1
      omega
    rw [hpadded, ofBytes_append, ofBytes_zeros, Nat.zero_mul, Nat.zero_add]
    generalize ofBytes ((toBytes width n).take (width - t)) = front at hdigits ⊢
    have hle := Nat.mul_le_mul_left front hcut
    omega

omit hwidth in
theorem length_readBlock_le {n : ℕ} {input rest : GoString}
    (hread : readNumber width input = some (n, rest)) : (readBlock width input).1.length ≤ n := by
  rcases readBlock_cases width input with hempty | ⟨m, after, hnumber, hblock⟩
  · rw [hempty]
    exact Nat.zero_le n
  · obtain ⟨rfl, -⟩ := Prod.mk.inj (Option.some.inj (hread.symm.trans hnumber))
    rw [hblock, length_fill]

/-- A string behind zeros is found shorter, unless it is empty. -/
theorem readBlock_behind {s : GoString} {t : ℕ} (hs : s.length < 256 ^ width) (ht : 0 < t)
    (rest : GoString) :
    (readBlock width (zeros t ++ (block width s ++ rest))).1.length < s.length ∨
      s = [] ∧ readBlock width (zeros t ++ (block width s ++ rest)) = ([], zeros t ++ rest) := by
  rw [block, List.append_assoc]
  rcases readNumber_behind hwidth hs ht (s ++ rest) with ⟨n, after, hread, hlt⟩ | ⟨hzero, hread⟩
  · exact .inl ((length_readBlock_le hread).trans_lt hlt)
  · obtain rfl : s = [] := List.length_eq_zero_iff.mp hzero
    refine .inr ⟨rfl, ?_⟩
    rw [readBlock, hread]
    rfl

end Width

/-! ### Pairs -/

/-- The pairs of strings that are read, and the input behind them. -/
def pairsOf (width : ℕ) : ℕ → GoString → List (GoString × GoString) × GoString :=
  readPairs width fun k v ↦ [(k, v)]

/-- Pairs of strings as they are written. -/
def blocks (width : ℕ) (pairs : List (GoString × GoString)) : GoString :=
  pairs.flatMap fun p ↦ block width p.1 ++ block width p.2

section Pairs

variable {width : ℕ}

theorem pairsOf_succ (n : ℕ) (input : GoString) :
    pairsOf width (n + 1) input =
      (((readBlock width input).1, (readBlock width (readBlock width input).2).1) ::
          (pairsOf width n (readBlock width (readBlock width input).2).2).1,
        (pairsOf width n (readBlock width (readBlock width input).2).2).2) := rfl

theorem blocks_cons (p : GoString × GoString) (pairs : List (GoString × GoString))
    (rest : GoString) :
    blocks width (p :: pairs) ++ rest =
      block width p.1 ++ (block width p.2 ++ (blocks width pairs ++ rest)) := by
  rw [blocks, List.flatMap_cons, List.append_assoc, List.append_assoc]
  rfl

theorem readPairs_eq {β : Type} (deliver : GoString → GoString → List β) (n : ℕ)
    (input : GoString) :
    readPairs width deliver n input =
      ((pairsOf width n input).1.flatMap fun p ↦ deliver p.1 p.2, (pairsOf width n input).2) := by
  induction n generalizing input with
  | zero => rfl
  | succ n ih =>
    rw [readPairs, pairsOf_succ]
    dsimp only
    rw [ih]
    rfl

theorem length_pairsOf (n : ℕ) (input : GoString) : (pairsOf width n input).1.length = n := by
  induction n generalizing input with
  | zero => rfl
  | succ n ih => exact congrArg (· + 1) (ih _)

theorem zeroTail_pairsOf {n : ℕ} {input : GoString} {p : GoString × GoString}
    (hp : p ∈ (pairsOf width n input).1) : ZeroTail p.1 ∧ ZeroTail p.2 := by
  induction n generalizing input with
  | zero => exact absurd hp List.not_mem_nil
  | succ n ih =>
    rcases List.mem_cons.mp hp with rfl | hp
    · exact ⟨zeroTail_readBlock _ _, zeroTail_readBlock _ _⟩
    · exact ih hp

/-! ### Pairs behind zeros -/

variable (hwidth : width ≠ 0 ∧ width ≤ maxRW)

include hwidth

/-- A pair of two empty strings is found behind zeros. -/
theorem pairsOf_behind_nil {t : ℕ} (ht : 0 < t) (n : ℕ) (rest : GoString) :
    pairsOf width (n + 1) (zeros t ++ (block width [] ++ (block width [] ++ rest))) =
      (([], []) :: (pairsOf width n (zeros t ++ rest)).1,
        (pairsOf width n (zeros t ++ rest)).2) := by
  have hnil (rest : GoString) :
      readBlock width (zeros t ++ (block width [] ++ rest)) = ([], zeros t ++ rest) :=
    (readBlock_behind hwidth (Nat.pow_pos (by decide)) ht rest).elim
      (fun hshort ↦ absurd hshort (Nat.not_lt_zero _)) And.right
  rw [pairsOf_succ, hnil, hnil]

/-- Assumes: pairs in order of the lengths of their keys, behind zeros. If they are found, in
whatever order, the first one is the pair of two empty strings. -/
theorem head_of_behind {p : GoString × GoString} {pairs : List (GoString × GoString)} {t : ℕ}
    {rest : GoString} (hlength : p.1.length < 256 ^ width ∧ p.2.length < 256 ^ width)
    (hsorted : ∀ q ∈ pairs, p.1.length ≤ q.1.length)
    (hnodup : ((p :: pairs).map Prod.fst).Nodup) (ht : 0 < t)
    (hperm : (pairsOf width (pairs.length + 1)
      (zeros t ++ (blocks width (p :: pairs) ++ rest))).1.Perm (p :: pairs)) :
    p = ([], []) := by
  obtain ⟨k, v⟩ := p
  rw [blocks_cons, pairsOf_succ] at hperm
  have hfound := hperm.subset List.mem_cons_self
  rcases readBlock_behind hwidth hlength.1 ht (block width v ++ (blocks width pairs ++ rest)) with
    hshort | ⟨rfl, hkey⟩
  · -- No key is as short as the one that is found.
    rcases List.mem_cons.mp hfound with heq | hother
    · rw [(Prod.mk.inj heq).1] at hshort
      exact absurd hshort (Nat.lt_irrefl _)
    · exact absurd (hsorted _ hother) (Nat.not_le.mpr hshort)
  · rw [hkey] at hfound
    have heq := List.inj_on_of_nodup_map hnodup hfound List.mem_cons_self rfl
    rcases readBlock_behind hwidth hlength.2 ht (blocks width pairs ++ rest) with
      hshort | ⟨rfl, -⟩
    · rw [(Prod.mk.inj heq).2] at hshort
      exact absurd hshort (Nat.lt_irrefl _)
    · rfl

/-- Assumes: pairs in order of the lengths of their keys, behind zeros. If they are found, in
whatever order, there is no pair but that of two empty strings. -/
theorem pairs_behind {pairs : List (GoString × GoString)} {t : ℕ} {rest : GoString}
    (hlength : ∀ p ∈ pairs, p.1.length < 256 ^ width ∧ p.2.length < 256 ^ width)
    (hsorted : pairs.Pairwise fun p q ↦ p.1.length ≤ q.1.length)
    (hnodup : (pairs.map Prod.fst).Nodup) (ht : 0 < t)
    (hperm : (pairsOf width pairs.length
      (zeros t ++ (blocks width pairs ++ rest))).1.Perm pairs) :
    (∀ p ∈ pairs, p = ([], [])) ∧
      (pairsOf width pairs.length (zeros t ++ (blocks width pairs ++ rest))).2 =
        zeros t ++ rest := by
  induction pairs with
  | nil => exact ⟨fun p hp ↦ absurd hp List.not_mem_nil, rfl⟩
  | cons p pairs ih =>
    obtain ⟨hp, hothers⟩ := List.forall_mem_cons.mp hlength
    obtain ⟨hfirst, hrest⟩ := List.pairwise_cons.mp hsorted
    obtain rfl := head_of_behind hwidth hp hfirst hnodup ht hperm
    rw [List.length_cons, blocks_cons, pairsOf_behind_nil hwidth ht] at hperm ⊢
    obtain ⟨hall, hafter⟩ := ih hothers hrest (List.nodup_cons.mp hnodup).2
      ((List.perm_cons _).mp hperm)
    exact ⟨List.forall_mem_cons.mpr ⟨rfl, hall⟩, hafter⟩

/-! ### Pairs with a long string -/

/-- A pair with a long string that is found where only zeros follow: the other string is empty if it
follows. -/
def Trailing (k v : GoString) : Prop :=
  (maxRW < k.length ∧ ZeroTail k ∧ v = []) ∨ (k.length ≤ maxRW ∧ maxRW < v.length ∧ ZeroTail v)

/-- Assumes: a pair with a long string before others in order of the lengths of their keys. If all
are found, in whatever order, the pair is trailing, there is no other pair but that of two empty
strings, and a tail of zeros is left in the input. -/
theorem pairs_of_long {k v : GoString} {pairs : List (GoString × GoString)} {rest : GoString}
    (hlength : ∀ p ∈ (k, v) :: pairs, p.1.length < 256 ^ width ∧ p.2.length < 256 ^ width)
    (hzero : ZeroTail k ∧ ZeroTail v) (hlong : maxRW < k.length ∨ maxRW < v.length)
    (hsorted : pairs.Pairwise fun p q ↦ p.1.length ≤ q.1.length)
    (hnodup : (((k, v) :: pairs).map Prod.fst).Nodup)
    (hperm : (pairsOf width (pairs.length + 1)
      (blocks width ((k, v) :: pairs) ++ rest)).1.Perm ((k, v) :: pairs)) :
    Trailing k v ∧ (∀ p ∈ pairs, p = ([], [])) ∧ ∃ t, 0 < t ∧
      (pairsOf width (pairs.length + 1) (blocks width ((k, v) :: pairs) ++ rest)).2 =
        zeros t ++ rest := by
  obtain ⟨⟨hk, hv⟩, hothers⟩ := List.forall_mem_cons.mp hlength
  rw [blocks_cons, pairsOf_succ] at hperm ⊢
  by_cases hkey : maxRW < k.length
  · have ht : 0 < k.length - maxRW := Nat.sub_pos_of_lt hkey
    rw [readBlock_long_block hwidth hk hkey hzero.1] at hperm ⊢
    rcases readBlock_behind hwidth hv ht (blocks width pairs ++ rest) with hshort | ⟨rfl, hvalue⟩
    · have hfound := hperm.subset List.mem_cons_self
      have heq := List.inj_on_of_nodup_map hnodup hfound List.mem_cons_self rfl
      rw [(Prod.mk.inj heq).2] at hshort
      exact absurd hshort (Nat.lt_irrefl _)
    · rw [hvalue] at hperm ⊢
      obtain ⟨hall, hafter⟩ := pairs_behind hwidth hothers hsorted (List.nodup_cons.mp hnodup).2 ht
        ((List.perm_cons _).mp hperm)
      exact ⟨.inl ⟨hkey, hzero.1, rfl⟩, hall, _, ht, hafter⟩
  · have hshort := Nat.le_of_not_lt hkey
    have hvalue := hlong.resolve_left hkey
    have ht : 0 < v.length - maxRW := Nat.sub_pos_of_lt hvalue
    rw [readBlock_block hwidth ⟨hk, hshort⟩, readBlock_long_block hwidth hv hvalue hzero.2]
      at hperm ⊢
    obtain ⟨hall, hafter⟩ := pairs_behind hwidth hothers hsorted (List.nodup_cons.mp hnodup).2 ht
      ((List.perm_cons _).mp hperm)
    exact ⟨.inr ⟨hshort, hvalue, hzero.2⟩, hall, _, ht, hafter⟩

theorem pairsOf_zeros (n i : ℕ) :
    ∃ j, pairsOf width n (zeros i) = (List.replicate n ([], []), zeros j) := by
  induction n generalizing i with
  | zero => exact ⟨i, rfl⟩
  | succ n ih =>
    obtain ⟨j, hread⟩ := ih (i - width - width)
    refine ⟨j, ?_⟩
    rw [pairsOf_succ, readBlock_zeros hwidth.2, readBlock_zeros hwidth.2, hread,
      List.replicate_succ]

omit hwidth in
theorem blocks_replicate_nil (n : ℕ) :
    ∃ i, blocks width (List.replicate n ([], [])) = zeros i := by
  induction n with
  | zero => exact ⟨0, rfl⟩
  | succ n ih =>
    obtain ⟨i, hi⟩ := ih
    refine ⟨width + (width + i), ?_⟩
    rw [← List.append_nil (blocks _ _), List.replicate_succ, blocks_cons, List.append_nil, hi,
      block_nil, zeros_append, zeros_append]

/-- A trailing pair is found where only zeros follow. -/
theorem pairsOf_trailing {k v : GoString} (hk : k.length < 256 ^ width)
    (hv : v.length < 256 ^ width) (htrailing : Trailing k v) (n i : ℕ) :
    ∃ j, pairsOf width (n + 1) (block width k ++ (block width v ++ zeros i)) =
      ((k, v) :: List.replicate n ([], []), zeros j) := by
  rcases htrailing with ⟨hlong, hzero, rfl⟩ | ⟨hshort, hlong, hzero⟩
  · obtain ⟨j, hread⟩ := pairsOf_zeros hwidth n (k.length - maxRW + (width + i) - width)
    refine ⟨j, ?_⟩
    rw [pairsOf_succ, readBlock_long_block hwidth hk hlong hzero, block_nil, zeros_append,
      zeros_append, readBlock_zeros hwidth.2, hread]
  · obtain ⟨j, hread⟩ := pairsOf_zeros hwidth n (v.length - maxRW + i)
    refine ⟨j, ?_⟩
    rw [pairsOf_succ, readBlock_block hwidth ⟨hk, hshort⟩,
      readBlock_long_block hwidth hv hlong hzero, zeros_append, hread]

/-- A trailing pair is found among pairs of two empty strings, where only zeros follow. -/
theorem pairsOf_of_trailing {k v : GoString} (hk : k.length < 256 ^ width)
    (hv : v.length < 256 ^ width) (htrailing : Trailing k v) (before after i : ℕ) :
    let pairs := List.replicate before ([], []) ++ (k, v) :: List.replicate after ([], [])
    ∃ j, pairsOf width pairs.length (blocks width pairs ++ zeros i) = (pairs, zeros j) := by
  induction before with
  | zero =>
    obtain ⟨m, hzeros⟩ := @blocks_replicate_nil width after
    obtain ⟨j, hread⟩ := pairsOf_trailing hwidth hk hv htrailing after (m + i)
    refine ⟨j, ?_⟩
    rw [List.replicate_zero, List.nil_append, List.length_cons, List.length_replicate, blocks_cons,
      hzeros, zeros_append]
    exact hread
  | succ before ih =>
    obtain ⟨j, hread⟩ := ih
    refine ⟨j, ?_⟩
    have hnil (rest : GoString) : readBlock width (block width [] ++ rest) = ([], rest) :=
      readBlock_block hwidth ⟨Nat.pow_pos (by decide), Nat.zero_le _⟩ rest
    rw [List.replicate_succ, List.cons_append, List.length_cons, blocks_cons, pairsOf_succ, hnil,
      hnil, hread]

end Pairs

end FluxCache.Foundation
