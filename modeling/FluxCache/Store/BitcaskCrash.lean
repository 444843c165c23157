import FluxCache.Foundation.Records
import FluxCache.Store.Bitcask

/-!
# A log that is cut off

A crash in the middle of the last append leaves a part of the log. The complete records are read
back as they were written, and `recover` then goes on with the bytes of the record that was cut off.
It takes them for an operation as well. Where the cut is decides for which: strings that are
complete are read, those of which the length or the bytes are missing are taken to be empty, and
what is left of them is then read for more strings and operations. `BitcaskOp.spelled` says what
comes of it, by the place of the cut (`readOps_record_take`). It does so as long as the string that
is cut off does not hold, in more than three bytes, strings or operations of its own
(`BitcaskOp.Quiet`): any log can be written into a string.

An operation that was never called does no harm where it leaves the value that is there anyway.
`lastEffect` is what a list of operations does to a place: the effect of the last operation that
touches it. The maps after a crash are those of the complete records exactly if the operations that
are read by mistake do no harm (`applyOps_append_eq_iff`).
-/

set_option autoImplicit false
set_option relaxedAutoImplicit false

namespace FluxCache.Store

open FluxCache.Foundation

/-! ### The effect of operations on a place -/

/-- What an operation does to a place: nothing, or it leaves a value or no value. -/
def BitcaskOp.effect : BitcaskOp → Slot → Option (Option GoString)
  | set key value, slot => if Slot.string key = slot then some (some value) else none
  | hset hash key value, slot => if Slot.field hash key = slot then some (some value) else none
  | del key, .string k => if key = k then some none else none
  | del key, .field hash _ => if key = hash then some none else none

/-- The effect of the last operation that touches a place. -/
def lastEffect (ops : List BitcaskOp) (slot : Slot) : Option (Option GoString) :=
  ops.reverse.findSome? fun op ↦ op.effect slot

theorem lastEffect_singleton (op : BitcaskOp) (slot : Slot) :
    lastEffect [op] slot = op.effect slot := by
  rw [lastEffect, List.reverse_singleton, List.findSome?_cons, List.findSome?_nil]
  cases op.effect slot <;> rfl

theorem lookup_erase_eq {α : Type} (m : GoMap α) (key k : GoString) :
    (m.erase key).lookup k = if key = k then none else m.lookup k := by
  by_cases hk : key = k
  · rw [if_pos hk, hk, Finmap.lookup_erase]
  · rw [if_neg hk, Finmap.lookup_erase_ne (Ne.symm hk)]

theorem valueAt_applyOp (maps : MapStore) (op : BitcaskOp) (slot : Slot) :
    (op.apply maps).valueAt slot = (op.effect slot).getD (maps.valueAt slot) := by
  cases op with
  | set key value =>
    rw [BitcaskOp.effect, apply_ite (Option.getD · (maps.valueAt slot))]
    exact valueAt_apply maps (.set key value) slot
  | hset hash key value =>
    rw [BitcaskOp.effect, apply_ite (Option.getD · (maps.valueAt slot))]
    exact valueAt_apply maps (.hset hash key value) slot
  | del key =>
    cases slot with
    | string k =>
      rw [BitcaskOp.effect, apply_ite (Option.getD · (maps.valueAt (.string k)))]
      exact lookup_erase_eq maps.strings key k
    | field hash k =>
      rw [BitcaskOp.effect, apply_ite (Option.getD · (maps.valueAt (.field hash k)))]
      show ((maps.hashes.erase key).lookup hash).bind (Finmap.lookup k) = _
      rw [lookup_erase_eq, apply_ite (Option.bind · (Finmap.lookup k))]
      rfl

theorem valueAt_applyOps (maps : MapStore) (ops : List BitcaskOp) (slot : Slot) :
    (applyOps maps ops).valueAt slot = (lastEffect ops slot).getD (maps.valueAt slot) := by
  induction ops using List.reverseRecOn with
  | nil => rfl
  | append_singleton ops op ih =>
    rw [applyOps_append, lastEffect, List.reverse_append, List.reverse_singleton,
      List.singleton_append, List.findSome?_cons]
    show (op.apply (applyOps maps ops)).valueAt slot = _
    rw [valueAt_applyOp, ih]
    cases op.effect slot with
    | none => rfl
    | some value => rfl

theorem MapStore.NoEmptyHash.del {maps : MapStore} (hmaps : maps.NoEmptyHash) (key : GoString) :
    (maps.del key).NoEmptyHash := by
  intro hash fields hlookup
  exact hmaps hash fields (lookup_of_lookup_erase hlookup)

theorem noEmptyHash_applyOps (ops : List BitcaskOp) : (applyOps .new ops).NoEmptyHash := by
  induction ops using List.reverseRecOn with
  | nil => exact noEmptyHash_writeAll []
  | append_singleton ops op ih =>
    rw [applyOps_append]
    cases op with
    | set key value => exact ih.apply (.set key value)
    | hset hash key value => exact ih.apply (.hset hash key value)
    | del key => exact ih.del key

/-- Operations leave a history's maps as they are exactly if, at every place that they touch, the
last of them leaves the value that is there. -/
theorem applyOps_append_eq_iff (ops more : List BitcaskOp) :
    applyOps .new (ops ++ more) = applyOps .new ops ↔
      ∀ slot value, lastEffect more slot = some value →
        (applyOps .new ops).valueAt slot = value := by
  have hvalue (slot : Slot) : (applyOps .new (ops ++ more)).valueAt slot =
      (lastEffect more slot).getD ((applyOps .new ops).valueAt slot) := by
    rw [applyOps_append, valueAt_applyOps]
  constructor
  · intro heq slot value hlast
    have hslot := hvalue slot
    rw [heq, hlast] at hslot
    exact hslot
  · intro hslots
    refine MapStore.eq_of_valueAt (noEmptyHash_applyOps _) (noEmptyHash_applyOps _) fun slot ↦ ?_
    rw [hvalue]
    cases hlast : lastEffect more slot with
    | none => rfl
    | some value => exact (hslots slot value hlast).symm

/-! ### A record that is cut off -/

/-- The strings of a record of which the first `k` bytes are left behind the byte of the operation:
those that are complete, and the bytes that are left of the length of the next one, or of that
string itself. -/
def cutParts : List GoString → ℕ → List GoString × GoString
  | [], _ => ([], [])
  | part :: parts, k =>
    if k < 4 then ([], (toBytes 4 part.length).take k)
    else if k - 4 < part.length then ([], part.take (k - 4))
    else
      let (complete, rest) := cutParts parts (k - 4 - part.length)
      (part :: complete, rest)

/-- An operation of which only the first strings are known. The others are taken to be empty. -/
def BitcaskOp.torn : BitcaskOp → List GoString → BitcaskOp
  | set _ _, parts => set (parts.getD 0 []) (parts.getD 1 [])
  | del _, parts => del (parts.getD 0 [])
  | hset _ _ _, parts => hset (parts.getD 0 []) (parts.getD 1 []) (parts.getD 2 [])

/-- The operation of a byte, with empty strings. -/
def bareOp (code : UInt8) : Option BitcaskOp :=
  if code = 83 then some (.set [] [])
  else if code = 68 then some (.del [])
  else if code = 72 then some (.hset [] [] [])
  else none

/-- What a record that is cut off is taken for: the operation without its missing strings, and then
an operation for each byte that is left behind the complete strings and stands for one. -/
def BitcaskOp.spelled (op : BitcaskOp) (k : ℕ) : List BitcaskOp :=
  op.torn (cutParts op.parts k).1 :: (cutParts op.parts k).2.filterMap bareOp

/-- Bytes that begin with a string that is not empty, behind its length. -/
def StartsString (bytes : GoString) : Prop :=
  ∃ s rest, s ≠ [] ∧ s.length < 2 ^ 32 ∧ bytes = block 4 s ++ rest

/-- The bytes that are left behind the complete strings are fewer than four, or they stand for no
operation, and where further strings are looked for in them there is none. -/
def BitcaskOp.Quiet (op : BitcaskOp) (k : ℕ) : Prop :=
  4 ≤ (cutParts op.parts k).2.length →
    (∀ b ∈ (cutParts op.parts k).2, bareOp b = none) ∧
      ∀ i, (cutParts op.parts k).1.length + i + 1 < op.parts.length →
        ¬ StartsString ((cutParts op.parts k).2.drop (4 * i))

/-- Strings that are read one after another. -/
def readStrings : ℕ → GoString → List GoString × GoString
  | 0, input => ([], input)
  | m + 1, input =>
    ((readStringAt input).1 :: (readStrings m (readStringAt input).2).1,
      (readStrings m (readStringAt input).2).2)

theorem readOp_eq (op : BitcaskOp) (input : GoString) :
    readOp op.code input = (some (op.torn (readStrings op.parts.length input).1),
      (readStrings op.parts.length input).2) := by
  cases op <;> rfl

theorem torn_append_replicate (op : BitcaskOp) (parts : List GoString) (m : ℕ) :
    op.torn (parts ++ List.replicate m []) = op.torn parts := by
  have hget (i : ℕ) : (parts ++ List.replicate m []).getD i [] = parts.getD i [] := by
    rw [List.getD_eq_getElem?_getD, List.getD_eq_getElem?_getD, List.getElem?_append]
    split
    · rfl
    · rename_i hi
      rw [List.getElem?_eq_none (Nat.le_of_not_lt hi), List.getElem?_replicate]
      split <;> rfl
  cases op <;> simp only [BitcaskOp.torn, hget]

/-! ### Strings that are missing -/

/-- A string of which not even the length is there is empty, and nothing is taken. -/
theorem readStringAt_short {input : GoString} (hshort : input.length < 4) :
    readStringAt input = ([], input) := by
  have hnone : takeNumber 4 input = none := by
    rw [Option.eq_none_iff_forall_ne_some]
    rintro ⟨n, rest⟩ hnumber
    rw [(takeNumber_eq_some_iff.mp hnumber).2, List.length_append, length_toBytes] at hshort
    omega
  rw [readStringAt, hnone]

/-- A string that is not there as a whole is empty, and its length is taken. -/
theorem readStringAt_of_not_startsString {input : GoString} (hlong : 4 ≤ input.length)
    (hnone : ¬ StartsString input) : readStringAt input = ([], input.drop 4) := by
  have hlength : (input.take 4).length = 4 := List.length_take_of_le hlong
  have hnumber : takeNumber 4 input = some (ofBytes (input.take 4), input.drop 4) := by
    have hlt := ofBytes_lt (input.take 4)
    have hbytes := toBytes_ofBytes (input.take 4)
    rw [hlength] at hlt hbytes
    exact takeNumber_eq_some_iff.mpr ⟨hlt, by rw [hbytes, List.take_append_drop]⟩
  rw [readStringAt, hnumber]
  dsimp only
  by_cases hzero : ofBytes (input.take 4) = 0
  · rw [if_pos hzero]
  · rw [if_neg hzero]
    cases hbytes : takeBytes (ofBytes (input.take 4)) (input.drop 4) with
    | none => rfl
    | some found =>
      obtain ⟨s, rest⟩ := found
      have hblock : takeBlock 4 input = some (s, rest) := by
        rw [takeBlock, hnumber]
        exact hbytes
      obtain ⟨hs, hinput⟩ := takeBlock_eq_some_iff.mp hblock
      refine absurd ⟨s, rest, ?_, hs, hinput⟩ hnone
      rintro rfl
      exact hzero (takeBytes_eq_some_iff.mp hbytes).1.symm

/-- A string that is cut off is empty, and what is left of it is read again. -/
theorem readStringAt_cut {part : GoString} (hpart : part.length < 2 ^ 32) {j : ℕ}
    (hj : j < part.length) :
    readStringAt (toBytes 4 part.length ++ part.take j) = ([], part.take j) := by
  have hlength : (part.take j).length = j := List.length_take_of_le hj.le
  have hnone : ¬ StartsString (toBytes 4 part.length ++ part.take j) := by
    rintro ⟨s, rest, -, hs, heq⟩
    rw [block, List.append_assoc] at heq
    obtain ⟨hnumber, hrest⟩ := List.append_inj heq (by rw [length_toBytes, length_toBytes])
    have hsame := congrArg ofBytes hnumber
    rw [ofBytes_toBytes, ofBytes_toBytes] at hsame
    have hlonger := congrArg List.length hrest
    rw [hlength, List.length_append] at hlonger
    omega
  have hlong : 4 ≤ (toBytes 4 part.length ++ part.take j).length := by
    rw [List.length_append, length_toBytes]
    exact Nat.le_add_right 4 _
  rw [readStringAt_of_not_startsString hlong hnone, List.drop_left' (length_toBytes 4 _)]

theorem readStrings_short {input : GoString} (hshort : input.length < 4) (m : ℕ) :
    readStrings m input = (List.replicate m [], input) := by
  induction m with
  | zero => rfl
  | succ m ih => rw [readStrings, readStringAt_short hshort, ih, List.replicate_succ]

/-- Where no strings are to be found, all are empty, and some last bytes remain. -/
theorem readStrings_quiet {m : ℕ} {input : GoString}
    (hquiet : ∀ i < m, ¬ StartsString (input.drop (4 * i))) :
    ∃ rest, rest <:+ input ∧ readStrings m input = (List.replicate m [], rest) := by
  induction m generalizing input with
  | zero => exact ⟨input, List.suffix_refl input, rfl⟩
  | succ m ih =>
    by_cases hshort : input.length < 4
    · exact ⟨input, List.suffix_refl input, readStrings_short hshort (m + 1)⟩
    · have hfirst := hquiet 0 (Nat.succ_pos m)
      rw [Nat.mul_zero, List.drop_zero] at hfirst
      obtain ⟨rest, hrest, hread⟩ := @ih (input.drop 4) fun i hi ↦ by
        rw [List.drop_drop, Nat.add_comm, ← Nat.mul_succ]
        exact hquiet (i + 1) (Nat.succ_lt_succ hi)
      refine ⟨rest, hrest.trans (List.drop_suffix 4 input), ?_⟩
      rw [readStrings, readStringAt_of_not_startsString (Nat.le_of_not_lt hshort) hfirst, hread,
        List.replicate_succ]

/-! ### Bytes that are taken for operations -/

/-- Behind fewer than four bytes all strings are empty. -/
theorem readOp_short (code : UInt8) {input : GoString} (hshort : input.length < 4) :
    readOp code input = (bareOp code, input) := by
  rw [readOp, bareOp, readStringAt_short hshort]
  dsimp only
  rw [readStringAt_short hshort]
  dsimp only
  rw [readStringAt_short hshort]
  split
  · rfl
  · split
    · rfl
    · split <;> rfl

theorem readOps_short {input : GoString} (hshort : input.length < 4) :
    readOps input = input.filterMap bareOp := by
  induction input with
  | nil => rw [readOps, List.filterMap_nil]
  | cons code input ih =>
    have hrest : input.length < 4 := Nat.lt_of_succ_lt hshort
    rw [readOps, readOp_short code hrest, ih hrest, List.filterMap_cons]
    cases bareOp code <;> rfl

/-- Bytes that stand for no operation are skipped. -/
theorem readOps_quiet {input : GoString} (hquiet : ∀ b ∈ input, bareOp b = none) :
    readOps input = [] := by
  induction input with
  | nil => rw [readOps]
  | cons code input ih =>
    obtain ⟨hcode, hothers⟩ := List.forall_mem_cons.mp hquiet
    have hskip : readOp code input = (none, input) := by
      rw [bareOp] at hcode
      rw [readOp]
      split at hcode
      · cases hcode
      · split at hcode
        · cases hcode
        · split at hcode
          · cases hcode
          · rename_i hset hdel hhset
            rw [if_neg hset, if_neg hdel, if_neg hhset]
    rw [readOps, hskip, ih hothers]
    rfl

/-- The strings of a record that is cut off: those that are complete are read, the others are empty,
and what is left behind the complete ones is taken for operations. Assumes: where more than three
bytes are left, they stand for no operation and hold no string. -/
theorem readStrings_cut {parts : List GoString} (hparts : ∀ part ∈ parts, part.length < 2 ^ 32)
    {k : ℕ} (hk : k < (parts.flatMap (block 4)).length)
    (hquiet : 4 ≤ (cutParts parts k).2.length → (∀ b ∈ (cutParts parts k).2, bareOp b = none) ∧
      ∀ i, (cutParts parts k).1.length + i + 1 < parts.length →
        ¬ StartsString ((cutParts parts k).2.drop (4 * i))) :
    ∃ m rest, readStrings parts.length ((parts.flatMap (block 4)).take k) =
        ((cutParts parts k).1 ++ List.replicate m [], rest) ∧
      readOps rest = (cutParts parts k).2.filterMap bareOp := by
  induction parts generalizing k with
  | nil => exact absurd hk (Nat.not_lt_zero k)
  | cons part parts ih =>
    obtain ⟨hpart, hothers⟩ := List.forall_mem_cons.mp hparts
    rw [List.flatMap_cons, List.length_append] at hk
    rw [List.flatMap_cons, List.length_cons]
    rw [cutParts] at hquiet ⊢
    have hblock : (block 4 part).length = 4 + part.length := by
      rw [block, List.length_append, length_toBytes]
    by_cases hlength : k < 4
    · -- The cut is in the length.
      have htake : (block 4 part ++ parts.flatMap (block 4)).take k =
          (toBytes 4 part.length).take k := by
        rw [block, List.append_assoc, List.take_append_of_le_length]
        rw [length_toBytes]
        exact hlength.le
      have hshort : ((toBytes 4 part.length).take k).length < 4 := by
        rw [List.length_take, length_toBytes]
        omega
      rw [if_pos hlength, htake]
      exact ⟨parts.length + 1, _, readStrings_short hshort _, readOps_short hshort⟩
    · rw [if_neg hlength] at hquiet ⊢
      by_cases hbody : k - 4 < part.length
      · -- The cut is in the string itself.
        have htake : (block 4 part ++ parts.flatMap (block 4)).take k =
            toBytes 4 part.length ++ part.take (k - 4) := by
          rw [block, List.append_assoc, List.take_append, length_toBytes,
            List.take_of_length_le (by rw [length_toBytes]; omega),
            List.take_append_of_le_length hbody.le]
        rw [if_pos hbody] at hquiet ⊢
        rw [htake, readStrings, readStringAt_cut hpart hbody]
        by_cases hshort : (part.take (k - 4)).length < 4
        · refine ⟨parts.length + 1, _, ?_, readOps_short hshort⟩
          rw [readStrings_short hshort, List.replicate_succ]
          rfl
        · obtain ⟨hcodes, hstrings⟩ := hquiet (Nat.le_of_not_lt hshort)
          obtain ⟨rest, hrest, hread⟩ := @readStrings_quiet parts.length (part.take (k - 4))
            fun i hi ↦ hstrings i (by
              rw [List.length_nil, List.length_cons, Nat.zero_add]
              exact Nat.succ_lt_succ hi)
          refine ⟨parts.length + 1, rest, ?_, ?_⟩
          · rw [hread, List.replicate_succ]
            rfl
          · rw [readOps_quiet fun b hb ↦ hcodes b (hrest.subset hb)]
            exact (List.filterMap_eq_nil_iff.mpr hcodes).symm
      · -- The string is complete.
        have htake : (block 4 part ++ parts.flatMap (block 4)).take k =
            block 4 part ++ (parts.flatMap (block 4)).take (k - 4 - part.length) := by
          rw [List.take_append, hblock, List.take_of_length_le (by rw [hblock]; omega),
            Nat.sub_sub]
        rw [if_neg hbody] at hquiet ⊢
        obtain ⟨m, rest, hread, hops⟩ := @ih hothers (k - 4 - part.length) (by omega) fun hlong ↦ by
          obtain ⟨hcodes, hstrings⟩ := hquiet hlong
          refine ⟨hcodes, fun i hi ↦ hstrings i ?_⟩
          rw [List.length_cons, List.length_cons]
          omega
        refine ⟨m, rest, ?_, hops⟩
        rw [htake, readStrings, readStringAt_block hpart, hread]
        rfl

/-- A record that is cut off behind its first byte. -/
theorem readOps_record_take {op : BitcaskOp} (hop : op.Short) {k : ℕ}
    (hk : k + 1 < op.record.length) (hquiet : op.Quiet k) :
    readOps (op.record.take (k + 1)) = op.spelled k := by
  obtain ⟨m, rest, hread, hrest⟩ := readStrings_cut hop (Nat.lt_of_succ_lt_succ hk) hquiet
  rw [BitcaskOp.record, List.take_succ_cons, readOps, readOp_eq, hread, hrest,
    torn_append_replicate]
  rfl

/-! ### Opening the store after a crash -/

/-- A cut between two records, or in a record of which no more than three bytes are left behind the
complete strings, or none that stand for operations or for strings. -/
def QuietCut (ops : List BitcaskOp) (n : ℕ) : Prop :=
  ∀ op k, torn BitcaskOp.record ops n = some (op, k) → op.Quiet (k - 1)

/-- The operations that are read behind the complete records: what the record that is cut off is
taken for, if there is one. -/
def misread (ops : List BitcaskOp) (n : ℕ) : List BitcaskOp :=
  (torn BitcaskOp.record ops n).elim [] fun cut ↦ cut.1.spelled (cut.2 - 1)

theorem readOps_leftover {ops : List BitcaskOp} (hops : ∀ op ∈ ops, op.Short) {n : ℕ}
    (hquiet : QuietCut ops n) : readOps (leftover BitcaskOp.record ops n) = misread ops n := by
  rw [leftover_eq_torn, misread]
  cases htorn : torn BitcaskOp.record ops n with
  | none =>
    rw [Option.elim_none, readOps]
    rfl
  | some cut =>
    obtain ⟨op, k⟩ := cut
    obtain ⟨hop, hzero, hk⟩ := torn_spec BitcaskOp.record htorn
    obtain ⟨k, rfl⟩ := Nat.exists_eq_succ_of_ne_zero hzero
    exact readOps_record_take (hops op hop) hk (hquiet op (k + 1) htorn)

namespace BitcaskStore

/-- What a session leaves in the file. -/
theorem run_calls (ops : List BitcaskOp) :
    ∃ s, BitcaskStore.run (ops.map .call) = .ok s ∧ s.Logged ops := by
  obtain ⟨first, hfirst, hlogged⟩ := openStore_nil
  rw [BitcaskStore.run, hfirst, ok_bind]
  clear hfirst
  induction ops using List.reverseRecOn with
  | nil => exact ⟨first, rfl, hlogged⟩
  | append_singleton ops op ih =>
    obtain ⟨s, hs, hops⟩ := ih
    refine ⟨s.call op, ?_, hops.call op⟩
    rw [List.map_append, List.foldlM_append, hs, ok_bind]
    rfl

/-- The log of any operations is cut off at any place behind the magic bytes. A store that is opened
on it has the maps of the operations whose records are complete exactly if the cut is between two
records, or if what the record that is cut off is taken for leaves at every place the value that is
there. Assumes: the strings are shorter than 2^32 bytes, and a string that is cut off is not itself
taken for operations or strings. -/
theorem torn_log_iff {ops : List BitcaskOp} (hops : ∀ op ∈ ops, op.Short) {n : ℕ}
    (hquiet : QuietCut ops n) :
    ∃ s, BitcaskStore.run (ops.map .call) = .ok s ∧
      ((∃ again, openStore (s.file.bytes.take (bitcaskMagic.length + n)) = .ok again ∧
          again.maps = applyOps .new (completed BitcaskOp.record ops n)) ↔
        ∀ slot value, lastEffect (misread ops n) slot = some value →
          (applyOps .new (completed BitcaskOp.record ops n)).valueAt slot = value) := by
  obtain ⟨s, hs, hlogged⟩ := run_calls ops
  refine ⟨s, hs, ?_⟩
  have hpart : completed BitcaskOp.record ops n <+: ops := isPrefix_completed BitcaskOp.record ops n
  rw [hlogged.bytes, List.take_length_add_append, openStore_magic, take_flatMap_record,
    readOps_records fun op hop ↦ hops op (hpart.mem hop), readOps_leftover hops hquiet,
    ← applyOps_append_eq_iff]
  constructor
  · rintro ⟨again, hagain, hmaps⟩
    cases hagain
    exact hmaps
  · intro hmaps
    exact ⟨_, rfl, hmaps⟩

/-- A record is cut off behind its key, and the key has the empty string already. -/
theorem torn_log_iff_same : ∃ s again,
    BitcaskStore.run [.call (.set (text "k") []), .call (.set (text "k") (text "v"))] = .ok s ∧
    openStore (s.file.bytes.take (bitcaskMagic.length + 16)) = .ok again ∧
    again.maps = applyOps .new [.set (text "k") []] := by
  obtain ⟨s, hs, hiff⟩ := @torn_log_iff [.set (text "k") [], .set (text "k") (text "v")]
    (by decide) 16 fun op k htorn ↦ by
      obtain ⟨rfl, rfl⟩ := Prod.mk.inj (Option.some.inj htorn)
      exact fun hlong ↦ absurd hlong (by decide)
  obtain ⟨again, hagain, hmaps⟩ := hiff.mpr fun slot value hlast ↦ by
    have hmisread : misread [.set (text "k") [], .set (text "k") (text "v")] 16 =
        [.set (text "k") []] := rfl
    have heffect : (BitcaskOp.set (text "k") []).effect slot = some value := by
      rwa [hmisread, lastEffect_singleton] at hlast
    obtain ⟨rfl, hvalue⟩ := Option.ite_none_right_eq_some.mp heffect
    exact Option.some.inj hvalue
  exact ⟨s, again, hs, hagain, hmaps⟩

/-- A value that is cut off: `Set` of `k` with `v`, and a crash before the length of `v`. The store
that is opened has the empty string under `k`, although no record is complete. -/
theorem torn_log_sets_empty : ∃ s again,
    BitcaskStore.run [.call (.set (text "k") (text "v"))] = .ok s ∧
    openStore (s.file.bytes.take (bitcaskMagic.length + 6)) = .ok again ∧
    completed BitcaskOp.record [.set (text "k") (text "v")] 6 = [] ∧
    again.get (text "k") = ([], true) ∧
    again.maps ≠ applyOps .new (completed BitcaskOp.record [.set (text "k") (text "v")] 6) := by
  refine ⟨_, _, rfl, rfl, rfl, rfl, ?_⟩
  intro heq
  have hget := congrArg (fun maps ↦ maps.get (text "k")) heq
  exact absurd hget (by decide)

end BitcaskStore

end FluxCache.Store
