import FluxCache.Foundation.BigEndian

/-!
# Reads into a buffer of zeros

A program makes a buffer and asks a file once to fill it. At the end of the file it gets nothing,
and that is the only error; if fewer bytes are left than the buffer has, or if the buffer has more
bytes than one read gives, the rest of the buffer stays zero and the program does not notice
(`readInto`). Numbers and strings are read that way (`readNumber`, `readBlock`), and a string that
cannot be read is empty.

On what was written, the readers find what was written (`readNumber_toBytes`, `readBlock_block`,
`readPairs_blocks`), as long as one read gives it. The rest of the module says what they find in a
file that ends early.
-/

set_option autoImplicit false
set_option relaxedAutoImplicit false

namespace FluxCache.Foundation

/-! ### The readers -/

/-- A string of zeros. -/
def zeros (n : ℕ) : GoString := List.replicate n 0

/-- What is in a buffer of zeros after a read: the first bytes of the input. -/
def padded (n : ℕ) (input : GoString) : GoString := input.take n ++ zeros (n - input.length)

/-- What one read puts into a buffer of zeros, and the input after it. -/
def fill (n : ℕ) (input : GoString) : GoString × GoString :=
  (padded n (input.take maxRW), input.drop (min n maxRW))

/-- One read into a buffer of zeros, which fails only at the end of the input. -/
def readInto (n : ℕ) (input : GoString) : Option (GoString × GoString) :=
  if input = [] then none else some (fill n input)

/-- Reads a number that is written with a number of bytes. -/
def readNumber (width : ℕ) (input : GoString) : Option (ℕ × GoString) :=
  (readInto width input).map (Prod.map ofBytes id)

/-- Reads a length and then a string. A string that cannot be read is empty. -/
def readBlock (width : ℕ) (input : GoString) : GoString × GoString :=
  match readNumber width input with
  | none => ([], input)
  | some (n, rest) =>
    if n = 0 then ([], rest)
    else
      match readInto n rest with
      | none => ([], rest)
      | some (buf, rest) => (buf, rest)

/-- Reads as many pairs of strings as are asked for, and passes each on. -/
def readPairs {β : Type} (width : ℕ) (deliver : GoString → GoString → List β) :
    ℕ → GoString → List β × GoString
  | 0, input => ([], input)
  | n + 1, input =>
    let (key, rest) := readBlock width input
    let (value, rest) := readBlock width rest
    let (items, rest) := readPairs width deliver n rest
    (deliver key value ++ items, rest)

/-! ### Reading what was written -/

theorem length_zeros (n : ℕ) : (zeros n).length = n := List.length_replicate

theorem zeros_append (n m : ℕ) : zeros n ++ zeros m = zeros (n + m) :=
  List.replicate_append_replicate

theorem padded_append {n : ℕ} {bytes : GoString} (hbytes : bytes.length = n) (rest : GoString) :
    padded n (bytes ++ rest) = bytes := by
  have hfull : n - (bytes ++ rest).length = 0 := by
    rw [List.length_append]
    omega
  rw [padded, hfull, List.take_left' hbytes]
  exact List.append_nil bytes

theorem padded_take {n m : ℕ} (hn : n ≤ m) (input : GoString) :
    padded n (input.take m) = padded n input := by
  rw [padded, padded, List.take_take, Nat.min_eq_left hn, List.length_take]
  congr 2
  omega

/-- A buffer that one read can fill. -/
theorem fill_of_le {n : ℕ} (hn : n ≤ maxRW) (input : GoString) :
    fill n input = (padded n input, input.drop n) := by
  rw [fill, padded_take hn, Nat.min_eq_left hn]

/-- A read of bytes that are all there. -/
theorem readInto_append {n : ℕ} {bytes : GoString} (hbytes : bytes.length = n) (hn : n ≠ 0)
    (hmax : n ≤ maxRW) (rest : GoString) : readInto n (bytes ++ rest) = some (bytes, rest) := by
  have hne : bytes ++ rest ≠ [] := by
    intro hnil
    rw [(List.append_eq_nil_iff.mp hnil).1] at hbytes
    exact hn hbytes.symm
  rw [readInto, if_neg hne, fill_of_le hmax, padded_append hbytes, List.drop_left' hbytes]

/-- A string that is read as it was written: its length fits, and its bytes come with one read. -/
def Whole (width : ℕ) (s : GoString) : Prop := s.length < 256 ^ width ∧ s.length ≤ maxRW

section Blocks

variable {width : ℕ} (hwidth : width ≠ 0 ∧ width ≤ maxRW)

include hwidth

theorem readNumber_toBytes {n : ℕ} (hn : n < 256 ^ width) (rest : GoString) :
    readNumber width (toBytes width n ++ rest) = some (n, rest) := by
  rw [readNumber, readInto_append (length_toBytes width n) hwidth.1 hwidth.2, Option.map_some,
    Prod.map_apply, ofBytes_toBytes, Nat.mod_eq_of_lt hn, id]

theorem readBlock_block {s : GoString} (hs : Whole width s) (rest : GoString) :
    readBlock width (block width s ++ rest) = (s, rest) := by
  rw [readBlock, block, List.append_assoc, readNumber_toBytes hwidth hs.1]
  by_cases hempty : s.length = 0
  · rw [List.length_eq_zero_iff.mp hempty]
    rfl
  · simp only [if_neg hempty, readInto_append rfl hempty hs.2]

/-- Assumes: pairs of strings that come with one read each. They are read as they were written. -/
theorem readPairs_blocks {β : Type} (deliver : GoString → GoString → List β)
    {pairs : List (GoString × GoString)}
    (hpairs : ∀ p ∈ pairs, Whole width p.1 ∧ Whole width p.2)
    (rest : GoString) :
    readPairs width deliver pairs.length
        (pairs.flatMap (fun p ↦ block width p.1 ++ block width p.2) ++ rest) =
      (pairs.flatMap fun p ↦ deliver p.1 p.2, rest) := by
  induction pairs with
  | nil => rfl
  | cons p pairs ih =>
    obtain ⟨⟨hkey, hvalue⟩, hothers⟩ := List.forall_mem_cons.mp hpairs
    rw [List.length_cons, List.flatMap_cons, List.append_assoc, List.append_assoc, readPairs]
    simp only [readBlock_block hwidth hkey, readBlock_block hwidth hvalue, ih hothers,
      List.flatMap_cons]

end Blocks

/-! ### Reading zeros -/

theorem ofBytes_append (s t : GoString) :
    ofBytes (s ++ t) = ofBytes s * 256 ^ t.length + ofBytes t := by
  induction s with
  | nil => rw [List.nil_append, ofBytes, Nat.zero_mul, Nat.zero_add]
  | cons b s ih =>
    rw [List.cons_append, ofBytes, ofBytes, ih, List.length_append, Nat.pow_add, Nat.add_mul,
      Nat.mul_assoc, Nat.add_assoc]

theorem ofBytes_zeros (n : ℕ) : ofBytes (zeros n) = 0 := by
  induction n with
  | zero => rfl
  | succ n ih =>
    show (0 : UInt8).toNat * 256 ^ (zeros n).length + ofBytes (zeros n) = 0
    rw [ih, UInt8.toNat_zero, Nat.zero_mul]

theorem toBytes_zero (width : ℕ) : toBytes width 0 = zeros width := by
  have h := toBytes_ofBytes (zeros width)
  rwa [ofBytes_zeros, length_zeros] at h

theorem block_nil (width : ℕ) : block width [] = zeros width := by
  rw [block, List.append_nil]
  exact toBytes_zero width

theorem take_zeros (n i : ℕ) : (zeros i).take n = zeros (min n i) := List.take_replicate

theorem drop_zeros (n i : ℕ) : (zeros i).drop n = zeros (i - n) := List.drop_replicate

theorem zeros_ne_nil {i : ℕ} (hi : i ≠ 0) : zeros i ≠ [] := fun hnil ↦
  hi (by rw [← length_zeros i, hnil]; rfl)

/-- Where only zeros follow, it makes no difference how many of them come with the read. -/
theorem fill_append_zeros {n : ℕ} {front : GoString} (hfront : front.length ≤ min n maxRW)
    (i : ℕ) :
    fill n (front ++ zeros i) =
      (front ++ zeros (n - front.length), zeros (i - (min n maxRW - front.length))) := by
  obtain ⟨hn, hmax⟩ := Nat.le_min.mp hfront
  rw [fill, padded, List.take_append, List.take_of_length_le hmax, take_zeros, List.take_append,
    List.take_of_length_le hn, take_zeros, List.drop_append, List.drop_of_length_le hfront,
    drop_zeros, List.nil_append, List.append_assoc, zeros_append, List.length_append,
    length_zeros]
  congr 3
  omega

theorem readNumber_zeros {width i : ℕ} (hwidth : width ≤ maxRW) (hi : i ≠ 0) :
    readNumber width (zeros i) = some (0, zeros (i - width)) := by
  have hfill := @fill_append_zeros width [] (Nat.zero_le _) i
  rw [List.nil_append, List.nil_append, List.length_nil, Nat.sub_zero, Nat.sub_zero,
    Nat.min_eq_left hwidth] at hfill
  rw [readNumber, readInto, if_neg (zeros_ne_nil hi), hfill, Option.map_some, Prod.map_apply,
    ofBytes_zeros, id]

theorem readBlock_zeros {width : ℕ} (hwidth : width ≤ maxRW) (i : ℕ) :
    readBlock width (zeros i) = ([], zeros (i - width)) := by
  by_cases hi : i = 0
  · rw [hi, Nat.zero_sub]
    rfl
  · rw [readBlock, readNumber_zeros hwidth hi]
    rfl

/-- A string of which one read gives all but zeros is read back where only zeros follow, whatever
part of its own zeros is there. -/
theorem readBlock_append_zeros {width n : ℕ} (hwidth : width ≠ 0 ∧ width ≤ maxRW)
    (hn : n < 256 ^ width) {front : GoString} (hne : front ≠ [])
    (hfront : front.length ≤ min n maxRW) (i : ℕ) :
    readBlock width (toBytes width n ++ (front ++ zeros i)) =
      (front ++ zeros (n - front.length), zeros (i - (min n maxRW - front.length))) := by
  have hpos : n ≠ 0 := by
    rintro rfl
    exact hne (List.length_eq_zero_iff.mp (Nat.le_zero.mp (hfront.trans (Nat.min_le_left _ _))))
  rw [readBlock, readNumber_toBytes hwidth hn]
  simp only [if_neg hpos, readInto, if_neg (List.append_ne_nil_of_left_ne_nil hne _),
    fill_append_zeros hfront]

/-- A string whose first byte is missing is empty. -/
theorem readBlock_toBytes {width n : ℕ} (hwidth : width ≠ 0 ∧ width ≤ maxRW)
    (hn : n < 256 ^ width) : readBlock width (toBytes width n) = ([], []) := by
  have hnumber := readNumber_toBytes hwidth hn []
  rw [List.append_nil] at hnumber
  rw [readBlock, hnumber]
  by_cases hzero : n = 0
  · simp only [if_pos hzero]
  · simp only [if_neg hzero, readInto, if_pos]

end FluxCache.Foundation
