import FluxCache.Foundation.Truncation
import FluxCache.Persistence.RDB

/-!
# A crash in the middle of a snapshot

`writeSnapshot` first empties the file and then writes to it piece by piece. A crash leaves the old
file, or some first bytes of the new one (`crashFile_iff`). Of the empty file nothing is replayed.
So unless the maps are empty, the snapshot can only be atomic if nothing was replayed of the old
file either, and then the first commands that are replayed of a part of the new file must already be
all.

What these first commands can be is a matter of the reader (`gradual_replay`): one string whose
bytes after the first are zeros, next to an empty one, or the empty field of a single hash.
`LoneEntry` says that there is nothing else in the maps.
-/

set_option autoImplicit false
set_option relaxedAutoImplicit false

namespace FluxCache.Persistence

open Foundation Store

/-! ### Crashes -/

/-- What a crash leaves at the path: the old file before it is emptied, or else the writes that were
done and a part of the next one, or all writes. -/
inductive CrashFile (previous : Option GoString) (writes : List GoString) : Option GoString → Prop
  | before : CrashFile previous writes previous
  | during (finished : List GoString) (current : GoString) (later : List GoString) (part : GoString)
      (hwrites : writes = finished ++ current :: later) (hpart : part <+: current) :
      CrashFile previous writes (some (finished.flatten ++ part))
  | after : CrashFile previous writes (some writes.flatten)

/-- A crash leaves the old file or a part of the new one. -/
theorem crashFile_iff {previous file : Option GoString} {writes : List GoString} :
    CrashFile previous writes file ↔
      file = previous ∨ ∃ part, part <+: writes.flatten ∧ file = some part := by
  constructor
  · rintro (_ | ⟨finished, current, later, part, rfl, hpart⟩ | _)
    · exact .inl rfl
    · refine .inr ⟨finished.flatten ++ part, ?_, rfl⟩
      rw [List.flatten_append, List.flatten_cons]
      exact (List.prefix_append_right_inj _).mpr (hpart.trans (List.prefix_append current _))
    · exact .inr ⟨_, List.prefix_rfl, rfl⟩
  · rintro (rfl | ⟨part, ⟨rest, hfile⟩, rfl⟩)
    · exact .before
    · rcases List.flatten_eq_append_iff.mp hfile.symm with
        ⟨finished, later, rfl, rfl, -⟩ | ⟨finished, part, c, cs, later, rfl, rfl, -⟩
      · cases later with
        | nil =>
          rw [List.append_nil]
          exact .after
        | cons current later =>
          have hfirst : CrashFile previous (finished ++ current :: later)
              (some (finished.flatten ++ [])) :=
            .during finished current later [] rfl List.nil_prefix
          rwa [List.append_nil] at hfirst
      · exact .during finished (part ++ c :: cs) later part rfl (List.prefix_append part _)

/-! ### The first commands of a file that ends early -/

/-- The first commands that are replayed as a file grows. -/
inductive FirstDelivery : List Command → Prop
  | key (b : UInt8) (n : ℕ) : FirstDelivery [⟨text "SET", [b :: zeros n, []]⟩]
  | value (b : UInt8) (n : ℕ) : FirstDelivery [⟨text "SET", [[], b :: zeros n]⟩]
  | field (hk : GoString) (m : ℕ) :
      FirstDelivery (List.replicate (m + 1) ⟨text "HSET", [hk, [], []]⟩)

theorem deliverString_eq_nil_iff {k v : GoString} : deliverString k v = [] ↔ k = [] ∧ v = [] := by
  rw [deliverString]
  split
  · rename_i hempty
    exact iff_of_true rfl hempty
  · rename_i hsome
    exact iff_of_false (List.cons_ne_nil _ _) hsome

theorem deliverString_of_ne {k v : GoString} (h : ¬ (k = [] ∧ v = [])) :
    deliverString k v = [⟨text "SET", [k, v]⟩] := if_neg h

theorem tight_readString : Tight readString := tight_readBlock field_width.2

/-- One turn of the loop over the strings. -/
theorem gradual_pair : Gradual FirstDelivery fun input ↦
    (deliverString (readString input).1 (readString (readString input).2).1,
      (readString (readString input).2).2) where
  toTight := @Tight.bind _ _ readString tight_readString
    (fun k rest ↦ (deliverString k (readString rest).1, (readString rest).2))
    fun input ↦ tight_readString.map (deliverString (readString input).1)
  silent := rfl
  keep := by
    intro input b _ hitems hnil
    obtain ⟨hkey, hvalue⟩ := deliverString_eq_nil_iff.mp hnil
    refine hitems (deliverString_eq_nil_iff.mpr ⟨?_, ?_⟩)
    · by_contra hsome
      exact readBlock_ne_nil field_width.2 b hsome hkey
    · by_cases hleft : (readString input).2 = []
      · rw [hleft]
        rfl
      · rw [tight_readString.steady input b hleft] at hvalue
        by_contra hsome
        exact readBlock_ne_nil field_width.2 b hsome hvalue
  first := by
    intro input b hrest hitems
    obtain ⟨hkey, hvalue⟩ := deliverString_eq_nil_iff.mp hitems
    by_cases hleft : (readString input).2 = []
    · have hafter : readString (readString (input ++ [b])).2 = ([], []) := by
        refine readBlock_short field_width.2 ?_
        rcases tight_readString.used input b hleft with hused | hused
        · rw [hused]
          exact Nat.zero_le 4
        · rw [hused]
          exact (by decide : 1 ≤ 4)
      simp only [hafter]
      rcases readBlock_first_byte field_width.2 b hleft hkey with hnone | ⟨n, hone⟩
      · exact .inl (deliverString_eq_nil_iff.mpr ⟨hnone, rfl⟩)
      · have hkey' : (readString (input ++ [b])).1 = b :: zeros n := congrArg Prod.fst hone
        rw [hkey', deliverString_of_ne fun h ↦ List.cons_ne_nil b _ h.1]
        exact .inr ⟨.key b n, trivial⟩
    · have hsteady : readString (input ++ [b]) = ([], (readString input).2 ++ [b]) :=
        (tight_readString.steady input b hleft).trans (congrArg (Prod.mk · _) hkey)
      simp only [hsteady]
      rcases readBlock_first_byte field_width.2 b hrest hvalue with hnone | ⟨n, hone⟩
      · exact .inl (deliverString_eq_nil_iff.mpr ⟨rfl, hnone⟩)
      · have hvalue' : readString ((readString input).2 ++ [b]) = (b :: zeros n, []) := hone
        rw [hvalue', deliverString_of_ne fun h ↦ List.cons_ne_nil b _ h.2]
        exact .inr ⟨.value b n, rfl⟩

theorem gradual_strings (n : ℕ) : Gradual FirstDelivery (readPairs 4 deliverString n) := by
  induction n with
  | zero => exact gradual_none
  | succ n ih => exact gradual_pair.seq ih

/-! ### Hashes of a file that ends early -/

/-- The commands of a hash and of those after it, once the number of its fields is known. -/
def hashCommands (n : ℕ) (hk : GoString) (fieldCount : ℕ) (input : GoString) : List Command :=
  (readPairs 4 (deliverField hk) fieldCount input).1 ++
    (replayHashes n (readPairs 4 (deliverField hk) fieldCount input).2).commands

theorem commands_replayHashes_succ (n : ℕ) (input : GoString) :
    (replayHashes (n + 1) input).commands =
      (readNumber 4 (readString input).2).elim [] fun p ↦
        hashCommands n (readString input).1 p.1 p.2 := by
  rw [replayHashes]
  rcases readString input with ⟨hk, rest⟩
  dsimp only
  cases readNumber 4 rest <;> rfl

theorem readPairs_field_nil (hk : GoString) (m : ℕ) :
    readPairs 4 (deliverField hk) m [] = (List.replicate m ⟨text "HSET", [hk, [], []]⟩, []) := by
  induction m with
  | zero => rfl
  | succ m ih =>
    rw [List.replicate_succ]
    show (_ :: (readPairs 4 (deliverField hk) m []).1, (readPairs 4 (deliverField hk) m []).2) = _
    rw [ih]

section Hash

variable {n : ℕ} (hlater : Gradual FirstDelivery fun input ↦ ((replayHashes n input).commands, []))
  {hk : GoString}

include hlater

/-- At the end of the file a hash has as many empty fields as it should have fields. -/
theorem hashCommands_nil (m : ℕ) :
    hashCommands n hk m [] = [] ∨ FirstDelivery (hashCommands n hk m []) := by
  have hnone : (replayHashes n []).commands = [] := hlater.silent
  rw [hashCommands, readPairs_field_nil, hnone, List.append_nil]
  cases m with
  | zero => exact .inl rfl
  | succ m => exact .inr (.field hk m)

omit hlater in
theorem hashCommands_ne_nil {m : ℕ} (hm : m ≠ 0) (rest : GoString) :
    hashCommands n hk m rest ≠ [] := by
  obtain ⟨m, rfl⟩ := Nat.exists_eq_succ_of_ne_zero hm
  rw [hashCommands, readPairs]
  exact List.cons_ne_nil _ _

theorem gradual_hash : Gradual FirstDelivery fun input ↦
    ((readNumber 4 input).elim [] fun p ↦ hashCommands n hk p.1 p.2, []) := by
  have hread {input : GoString} (hinput : input ≠ []) :
      readNumber 4 input = some (ofBytes (padded 4 input), input.drop 4) := by
    rw [readNumber, readInto, if_neg hinput, fill_of_le field_width.2]
    rfl
  have hmore (input : GoString) (b : UInt8) : input ++ [b] ≠ [] :=
    List.append_ne_nil_of_right_ne_nil input (List.cons_ne_nil b [])
  refine Gradual.ofItems rfl (fun input b hitems ↦ ?_) fun input b hitems ↦ ?_
  · have hinput : input ≠ [] := by
      rintro rfl
      exact hitems rfl
    rw [hread hinput, Option.elim_some] at hitems
    rw [hread (hmore input b), Option.elim_some]
    by_cases hcount : ofBytes (padded 4 (input ++ [b])) = 0
    · have hbefore := Nat.le_zero.mp (hcount ▸ ofBytes_padded_le 4 input b)
      have hleft : input.drop 4 ≠ [] := by
        intro hnil
        refine hitems ?_
        rw [hbefore, hnil]
        exact hlater.silent
      have hfull : 4 ≤ input.length := by
        by_contra hshort
        exact hleft (List.drop_of_length_le (Nat.le_of_not_le hshort))
      rw [hbefore] at hitems
      rw [hcount, List.drop_append_of_le_length hfull]
      exact hlater.keep_append _ b hitems
    · exact hashCommands_ne_nil hcount _
  · rw [hread (hmore input b), Option.elim_some]
    by_cases hfull : 4 ≤ input.length
    · have hinput : input ≠ [] := by
        rintro rfl
        exact absurd hfull (by decide)
      rw [hread hinput, Option.elim_some] at hitems
      have hcount : ofBytes (padded 4 input) = 0 := by
        by_contra hne
        exact hashCommands_ne_nil hne _ hitems
      rw [hcount] at hitems
      rw [padded_of_le hfull, hcount, List.drop_append_of_le_length hfull]
      exact (hlater.first _ b rfl hitems).imp_right And.left
    · have hdrop : (input ++ [b]).drop 4 = [] := by
        refine List.drop_of_length_le ?_
        rw [List.length_append, List.length_singleton]
        omega
      rw [hdrop]
      exact hashCommands_nil hlater _

end Hash

theorem gradual_hashes (n : ℕ) :
    Gradual FirstDelivery fun input ↦ ((replayHashes n input).commands, []) := by
  induction n with
  | zero => exact Gradual.ofItems rfl (fun _ _ h ↦ absurd rfl h) fun _ _ _ ↦ .inl rfl
  | succ n ih =>
    simp only [commands_replayHashes_succ]
    exact @Gradual.bind _ _ _ readString tight_readString
      (fun hk rest ↦ ((readNumber 4 rest).elim [] fun p ↦ hashCommands n hk p.1 p.2, []))
      fun _ ↦ gradual_hash ih

theorem gradual_hashSection :
    Gradual FirstDelivery fun input ↦ ((replayHashSection input).commands, []) := by
  have hsame : (fun input ↦ ((replayHashSection input).commands, ([] : GoString))) =
      fun input ↦ (readNumber 4 input).elim ([], []) fun p ↦
        ((replayHashes p.1 p.2).commands, []) := by
    funext input
    rw [replayHashSection]
    cases readNumber 4 input <;> rfl
  rw [hsame]
  exact Gradual.afterNumber gradual_hashes

/-- As a file grows, its replay starts with first commands and goes on to have some. -/
theorem gradual_replay :
    Gradual FirstDelivery fun bytes ↦ ((replayFile (some bytes)).commands, []) := by
  have hstrings (n : ℕ) :
      Gradual FirstDelivery fun input ↦ ((replayStrings n input).commands, []) :=
    (gradual_strings n).seq gradual_hashSection
  have hsame : (fun bytes ↦ ((replayFile (some bytes)).commands, ([] : GoString))) =
      fun bytes ↦ (readInto rdbMagic.length bytes).elim ([], []) fun p ↦
        (readInto 4 p.2).elim ([], []) fun p ↦
          (readNumber 4 p.2).elim ([], []) fun p ↦ ((replayStrings p.1 p.2).commands, []) := by
    funext bytes
    by_cases hnil : bytes = []
    · rw [hnil]
      rfl
    · rw [replayFile, if_neg hnil, replayBytes]
      rcases readInto rdbMagic.length bytes with _ | ⟨magic, afterMagic⟩
      · rfl
      · simp only [Option.elim_some]
        rcases readInto 4 afterMagic with _ | ⟨version, afterVersion⟩
        · rfl
        · simp only [Option.elim_some]
          cases readNumber 4 afterVersion <;> rfl
  rw [hsame]
  exact Gradual.afterRead fun _ ↦ Gradual.afterRead fun _ ↦ Gradual.afterNumber hstrings

/-- Of a file of which something is replayed, the first commands are replayed of some part. -/
theorem exists_firstDelivery {file : GoString} (hfile : (replayFile (some file)).commands ≠ []) :
    ∃ part, part <+: file ∧ FirstDelivery (replayFile (some part)).commands :=
  gradual_replay.exists_first hfile

/-- Of a file of which nothing is replayed, nothing is replayed of any part. -/
theorem commands_of_isPrefix {part file : GoString} (hpart : part <+: file)
    (hfile : (replayFile (some file)).commands = []) : (replayFile (some part)).commands = [] :=
  gradual_replay.silent_of_isPrefix hpart hfile

/-! ### Maps that are restored at once -/

/-- What a replay of a file leaves in empty maps. -/
def restored (file : Option GoString) : MapStore := contents (replayFile file).commands

/-- The maps hold a single pair of an empty string and one whose bytes after the first are zeros, or
a single hash with nothing but an empty field that is empty. -/
def LoneEntry (maps : MapStore) : Prop :=
  (∃ (b : UInt8) (n : ℕ),
    maps = MapStore.new.set (b :: zeros n) [] ∨ maps = MapStore.new.set [] (b :: zeros n)) ∨
  ∃ hk : GoString, maps = MapStore.new.hset hk [] []

/-- A write that is repeated. -/
theorem writeAll_replicate (w : Write) (m : ℕ) :
    writeAll MapStore.new (List.replicate (m + 1) w) = w.apply MapStore.new := by
  induction m with
  | zero => rfl
  | succ m ih =>
    have htwice : w.apply (w.apply MapStore.new) = w.apply MapStore.new := by
      refine MapStore.eq_of_valueAt (noEmptyHash_writeAll [w, w]) (noEmptyHash_writeAll [w])
        fun slot ↦ ?_
      show (w.apply (w.apply MapStore.new)).valueAt slot = (w.apply MapStore.new).valueAt slot
      rw [valueAt_apply, valueAt_apply]
      split <;> rfl
    rw [List.replicate_succ', writeAll_append, ih]
    exact htwice

theorem FirstDelivery.loneEntry {cmds : List Command} (h : FirstDelivery cmds) :
    LoneEntry (contents cmds) := by
  cases h with
  | key b n => exact .inl ⟨b, n, .inl rfl⟩
  | value b n => exact .inl ⟨b, n, .inr rfl⟩
  | field hk m =>
    refine .inr ⟨hk, ?_⟩
    have hwrite : replayWrite ⟨text "HSET", [hk, [], []]⟩ = some (.hset hk [] []) := rfl
    rw [contents, List.filterMap_replicate_of_some hwrite]
    exact writeAll_replicate (.hset hk [] []) m

theorem LoneEntry.ne_new {maps : MapStore} (h : LoneEntry maps) : maps ≠ MapStore.new := by
  have hset (k v : GoString) : MapStore.new.set k v ≠ MapStore.new := fun heq ↦ by
    have hvalue := (valueAt_apply MapStore.new (.set k v) (.string k)).trans (if_pos rfl)
    exact absurd ((congrArg (MapStore.valueAt · (.string k)) heq).symm.trans hvalue) nofun
  have hhset (hk : GoString) : MapStore.new.hset hk [] [] ≠ MapStore.new := fun heq ↦ by
    have hvalue := (valueAt_apply MapStore.new (.hset hk [] []) (.field hk [])).trans (if_pos rfl)
    exact absurd ((congrArg (MapStore.valueAt · (.field hk [])) heq).symm.trans hvalue) nofun
  rcases h with ⟨b, n, rfl | rfl⟩ | ⟨hk, rfl⟩
  · exact hset _ _
  · exact hset _ _
  · exact hhset hk

/-- The parts of a file that goes on with zeros after some byte. -/
theorem isPrefix_cases {part start : GoString} {b : UInt8} {m : ℕ}
    (hpart : part <+: start ++ b :: zeros m) :
    part <+: start ∨ ∃ i, part = start ++ b :: zeros i := by
  rcases List.prefix_or_prefix_of_prefix hpart (List.prefix_append start _) with h | ⟨rest, rfl⟩
  · exact .inl h
  · rcases List.prefix_cons_iff.mp ((List.prefix_append_right_inj start).mp hpart) with
      rfl | ⟨more, rfl, hmore⟩
    · exact .inl (by rw [List.append_nil])
    · obtain ⟨-, hzeros⟩ := List.prefix_replicate_iff.mp hmore
      exact .inr ⟨more.length, by rw [zeros, ← hzeros]⟩

/-- Assumes: a file of which nothing is replayed up to some byte, and the same maps are restored
whatever number of zeros follows that byte. Of every part of it, nothing or these maps are restored.
-/
theorem restored_part {start part : GoString} {b : UInt8} {m : ℕ} {maps : MapStore}
    (hstart : (replayFile (some start)).commands = [])
    (hzeros : ∀ i, restored (some (start ++ b :: zeros i)) = maps)
    (hpart : part <+: start ++ b :: zeros m) :
    restored (some part) = MapStore.new ∨ restored (some part) = maps := by
  rcases isPrefix_cases hpart with hpart | ⟨i, rfl⟩
  · rw [restored, commands_of_isPrefix hpart hstart]
    exact .inl rfl
  · exact .inr (hzeros i)

theorem commands_hashSection_zeros (i : ℕ) : (replayHashSection (zeros i)).commands = [] := by
  rw [replayHashSection]
  by_cases hi : i = 0
  · rw [hi]
    rfl
  · rw [readNumber_zeros field_width.2 hi]
    rfl

theorem readString_zeros (j : ℕ) : readString (zeros j) = ([], zeros (j - 4)) :=
  readBlock_zeros field_width.2 j

section First

variable {n : ℕ} (hn : n + 1 < 2 ^ 32)

include hn

theorem readString_toBytes : readString (toBytes 4 (n + 1)) = ([], []) :=
  readBlock_toBytes field_width hn

/-- The first byte and any number of zeros are read as the whole string. -/
theorem readString_first (b : UInt8) (j : ℕ) :
    ∃ j', readString (toBytes 4 (n + 1) ++ b :: zeros j) = (b :: zeros n, zeros j') := by
  have hone : 1 ≤ maxRW := by decide
  have hfront : [b].length ≤ min (n + 1) maxRW := Nat.le_min.mpr ⟨Nat.le_add_left 1 n, hone⟩
  exact ⟨_, readBlock_append_zeros field_width hn (List.cons_ne_nil b []) hfront j⟩

end First

section Lone

variable (env : Environment) (i : ℕ)

/-- A snapshot of a single string. -/
theorem flatten_snapshot_set (k v : GoString) :
    (writeSnapshot env i (MapStore.new.set k v)).flatten =
      rdbMagic ++ (toBytes 4 rdbVersion ++
        (toBytes 4 1 ++ (block 4 k ++ (block 4 v ++ zeros 4)))) := by
  have hcard : (MapStore.new.set k v).strings.keys.card = 1 := rfl
  have hentries : env.entries i (MapStore.new.set k v).strings = [(k, v)] :=
    entries_singleton env i k v
  have hhashes : env.entries (i + 1) (MapStore.new.set k v).hashes = [] := entries_empty env (i + 1)
  have hnone : (MapStore.new.set k v).hashes.keys.card = 0 := rfl
  rw [flatten_writeSnapshot, hcard, hentries, hhashes, hnone, List.flatMap_singleton,
    List.append_assoc, toBytes_zero, writeHashes, List.flatten_nil, List.append_nil]

/-- A snapshot of a single field. -/
theorem flatten_snapshot_hset (hk fk fv : GoString) :
    (writeSnapshot env i (MapStore.new.hset hk fk fv)).flatten =
      rdbMagic ++ (toBytes 4 rdbVersion ++ (toBytes 4 0 ++ (toBytes 4 1 ++
        (block 4 hk ++ (toBytes 4 1 ++ (block 4 fk ++ block 4 fv)))))) := by
  have hstrings : env.entries i (MapStore.new.hset hk fk fv).strings = [] := entries_empty env i
  have hhashes : env.entries (i + 1) (MapStore.new.hset hk fk fv).hashes =
      [(hk, (∅ : GoMap GoString).insert fk fv)] := entries_singleton env (i + 1) hk _
  rw [flatten_writeSnapshot, hstrings, hhashes, flatten_writeHashes_cons, entries_singleton,
    List.flatMap_singleton]
  simp only [writeHashes, List.flatten_nil, List.append_nil]
  rfl

/-- A string with zeros after its first byte. -/
theorem block_first (b : UInt8) (n : ℕ) :
    block 4 (b :: zeros n) = toBytes 4 (n + 1) ++ b :: zeros n := by
  rw [block, List.length_cons, length_zeros]

theorem commands_replayStrings_zero (input : GoString) :
    (replayStrings 0 input).commands = (replayHashSection input).commands := rfl

theorem commands_replayStrings_one (input : GoString) :
    (replayStrings 1 input).commands =
      deliverString (readString input).1 (readString (readString input).2).1 ++
        (replayHashSection (readString (readString input).2).2).commands := by
  simp only [replayStrings, readPairs, Replayed.after, List.append_nil]
  rfl

theorem hashCommands_zero_one (hk input : GoString) :
    hashCommands 0 hk 1 input =
      deliverField hk (readString input).1 (readString (readString input).2).1 := by
  simp only [hashCommands, readPairs, replayHashes, List.append_nil]
  rfl

theorem restored_part_key {b : UInt8} {n : ℕ} (hn : n + 1 < 2 ^ 32) {part : GoString}
    (hpart : part <+: (writeSnapshot env i (MapStore.new.set (b :: zeros n) [])).flatten) :
    restored (some part) = MapStore.new ∨
      restored (some part) = MapStore.new.set (b :: zeros n) [] := by
  have hfile : (writeSnapshot env i (MapStore.new.set (b :: zeros n) [])).flatten =
      (rdbMagic ++ (toBytes 4 rdbVersion ++ (toBytes 4 1 ++ toBytes 4 (n + 1)))) ++
        b :: zeros (n + (4 + 4)) := by
    rw [flatten_snapshot_set, block_first, block_nil, zeros_append]
    simp only [List.append_assoc, List.cons_append, zeros_append]
  rw [hfile] at hpart
  refine restored_part ?_ (fun j ↦ ?_) hpart
  · rw [replayFile_header (by decide), commands_replayStrings_one, readString_toBytes hn]
    rfl
  · obtain ⟨j', hfirst⟩ := readString_first hn b j
    rw [List.append_assoc, List.append_assoc, List.append_assoc, restored,
      replayFile_header (by decide), commands_replayStrings_one, hfirst,
      readString_zeros, commands_hashSection_zeros, List.append_nil,
      deliverString_of_ne fun h ↦ List.cons_ne_nil b _ h.1]
    rfl

theorem restored_part_value {b : UInt8} {n : ℕ} (hn : n + 1 < 2 ^ 32) {part : GoString}
    (hpart : part <+: (writeSnapshot env i (MapStore.new.set [] (b :: zeros n))).flatten) :
    restored (some part) = MapStore.new ∨
      restored (some part) = MapStore.new.set [] (b :: zeros n) := by
  have hfile : (writeSnapshot env i (MapStore.new.set [] (b :: zeros n))).flatten =
      (rdbMagic ++ (toBytes 4 rdbVersion ++ (toBytes 4 1 ++ (block 4 [] ++ toBytes 4 (n + 1))))) ++
        b :: zeros (n + 4) := by
    rw [flatten_snapshot_set, block_first]
    simp only [List.append_assoc, List.cons_append, zeros_append]
  have hkey (rest : GoString) : readString (block 4 [] ++ rest) = ([], rest) :=
    readBlock_block field_width (whole_of_lt (by decide)) rest
  rw [hfile] at hpart
  refine restored_part ?_ (fun j ↦ ?_) hpart
  · rw [replayFile_header (by decide), commands_replayStrings_one, hkey, readString_toBytes hn]
    rfl
  · obtain ⟨j', hfirst⟩ := readString_first hn b j
    rw [List.append_assoc, List.append_assoc, List.append_assoc, List.append_assoc, restored,
      replayFile_header (by decide), commands_replayStrings_one, hkey, hfirst,
      commands_hashSection_zeros, List.append_nil,
      deliverString_of_ne fun h ↦ List.cons_ne_nil b _ h.2]
    rfl

theorem restored_part_field {hk : GoString} (hlength : hk.length ≤ maxRW) {part : GoString}
    (hpart : part <+: (writeSnapshot env i (MapStore.new.hset hk [] [])).flatten) :
    restored (some part) = MapStore.new ∨ restored (some part) = MapStore.new.hset hk [] [] := by
  have hone (rest : GoString) : toBytes 4 1 ++ rest = zeros 3 ++ 1 :: rest := rfl
  have hfile : (writeSnapshot env i (MapStore.new.hset hk [] [])).flatten =
      (rdbMagic ++ (toBytes 4 rdbVersion ++ (toBytes 4 0 ++ (toBytes 4 1 ++
        (block 4 hk ++ zeros 3))))) ++ 1 :: zeros (4 + 4) := by
    rw [flatten_snapshot_hset, block_nil, zeros_append, hone (zeros (4 + 4))]
    simp only [List.append_assoc]
  have hhash (rest : GoString) : (replayStrings 0 (toBytes 4 1 ++ (block 4 hk ++ rest))).commands =
      (readNumber 4 rest).elim [] fun p ↦ hashCommands 0 hk p.1 p.2 := by
    have hread : readString (block 4 hk ++ rest) = (hk, rest) :=
      readBlock_block field_width (whole_of_lt (Nat.lt_succ_of_le hlength)) rest
    rw [commands_replayStrings_zero, replayHashSection_toBytes (by decide),
      commands_replayHashes_succ, hread]
  rw [hfile] at hpart
  refine restored_part ?_ (fun j ↦ ?_) hpart
  · rw [replayFile_header (by decide), hhash, readNumber_zeros field_width.2 (by decide)]
    rfl
  · simp only [List.append_assoc]
    rw [restored, replayFile_header (by decide), hhash, ← hone,
      readNumber_toBytes field_width (by decide), Option.elim_some, hashCommands_zero_one,
      readString_zeros, readString_zeros]
    rfl

end Lone

/-! ### Maps of which nothing is replayed -/

/-- The maps hold no value, or only the empty string under the empty key. -/
def Blank (maps : MapStore) : Prop :=
  ∀ slot value, maps.valueAt slot = some value → slot = .string [] ∧ value = []

/-- Strings of which no pair is delivered are empty, however long they may be. -/
theorem pairs_of_silent {pairs : List (GoString × GoString)} {rest : GoString}
    (hpairs : ∀ p ∈ pairs, p.1.length < 2 ^ 32 ∧ p.2.length < 2 ^ 32)
    (hsilent : (readPairs 4 deliverString pairs.length
      (pairs.flatMap (fun p ↦ block 4 p.1 ++ block 4 p.2) ++ rest)).1 = []) :
    ∀ p ∈ pairs, p = ([], []) := by
  have hnil (rest : GoString) : readBlock 4 (block 4 [] ++ rest) = ([], rest) :=
    readBlock_block field_width (whole_of_lt (by decide)) rest
  induction pairs with
  | nil => exact fun p hp ↦ absurd hp List.not_mem_nil
  | cons p pairs ih =>
    obtain ⟨k, v⟩ := p
    obtain ⟨⟨hk, hv⟩, hothers⟩ := List.forall_mem_cons.mp hpairs
    rw [List.length_cons, List.flatMap_cons, List.append_assoc, List.append_assoc, readPairs]
      at hsilent
    obtain ⟨hpair, hrest⟩ := List.append_eq_nil_iff.mp hsilent
    obtain ⟨hkey, hvalue⟩ := deliverString_eq_nil_iff.mp hpair
    obtain rfl : k = [] := eq_nil_of_readBlock_block field_width.2 hk hkey
    rw [hnil] at hvalue hrest
    obtain rfl : v = [] := eq_nil_of_readBlock_block field_width.2 hv hvalue
    rw [hnil] at hrest
    exact List.forall_mem_cons.mpr ⟨rfl, ih hothers hrest⟩

/-- Hashes of which no field is delivered have none. -/
theorem hashes_of_silent {env : Environment} {i : ℕ} {hashes : List (GoString × GoMap GoString)}
    (hhash : ∀ entry ∈ hashes, entry.1.length ≤ maxRW ∧ entry.2.keys.card < 2 ^ 32)
    (hsilent : (replayHashes hashes.length (writeHashes env i hashes).flatten).commands = []) :
    ∀ entry ∈ hashes, entry.2 = ∅ := by
  induction hashes generalizing i with
  | nil => exact fun entry hentry ↦ absurd hentry List.not_mem_nil
  | cons entry hashes ih =>
    obtain ⟨hk, fields⟩ := entry
    obtain ⟨⟨hlength, hcount⟩, hhashes⟩ := List.forall_mem_cons.mp hhash
    have hname (rest : GoString) : readString (block 4 hk ++ rest) = (hk, rest) :=
      readBlock_block field_width (whole_of_lt (Nat.lt_succ_of_le hlength)) rest
    rw [flatten_writeHashes_cons, List.length_cons, commands_replayHashes_succ, hname,
      readNumber_toBytes field_width hcount, Option.elim_some] at hsilent
    have hnone : fields.keys.card = 0 := by
      by_contra hsome
      exact hashCommands_ne_nil hsome _ hsilent
    have hempty : env.entries i fields = [] := by
      rw [← List.length_eq_zero_iff, length_entries]
      exact hnone
    rw [hnone, hempty] at hsilent
    exact List.forall_mem_cons.mpr ⟨entries_eq_nil_iff.mp hempty, ih hhashes hsilent⟩

/-- Nothing is replayed of a snapshot exactly if the maps hold nothing but the pair of two empty
strings. Assumes: the maps fit, and one read gives the name of each hash. -/
theorem commands_snapshot_eq_nil_iff (env : Environment) (i : ℕ) {maps : MapStore}
    (hfits : Fits maps) (hnames : ∀ hash ∈ maps.hashes, hash.length ≤ maxRW) :
    (replayFile (some (writeSnapshot env i maps).flatten)).commands = [] ↔ Blank maps := by
  constructor
  · intro hsilent
    rw [flatten_writeSnapshot, replayFile_header hfits.strings] at hsilent
    obtain ⟨hstrings, hhashes⟩ := List.append_eq_nil_iff.mp hsilent
    rw [← length_entries env i] at hstrings
    have hpairs := pairs_of_silent
      (fun p hp ↦ hfits.string p.1 p.2 (mem_entries_iff.mp hp)) hstrings
    have hwhole : ∀ p ∈ env.entries i maps.strings, Whole 4 p.1 ∧ Whole 4 p.2 := by
      intro p hp
      rw [hpairs p hp]
      exact ⟨whole_of_lt (by decide), whole_of_lt (by decide)⟩
    rw [← length_entries env i, readPairs_blocks field_width deliverString hwhole,
      replayHashSection_toBytes hfits.hashes, ← length_entries env (i + 1)] at hhashes
    have hnone := hashes_of_silent (fun entry hentry ↦
      have hlookup := mem_entries_iff.mp hentry
      ⟨hnames entry.1 (Finmap.mem_of_lookup_eq_some hlookup), (hfits.hash _ _ hlookup).2⟩) hhashes
    intro slot value hvalue
    cases slot with
    | string key =>
      obtain ⟨rfl, rfl⟩ := Prod.mk.inj (hpairs (key, value) (mem_entries_iff.mpr hvalue))
      exact ⟨rfl, rfl⟩
    | field hash key =>
      obtain ⟨fields, hlookup, hfield⟩ := Option.bind_eq_some_iff.mp hvalue
      obtain rfl : fields = ∅ := hnone (hash, fields) (mem_entries_iff.mpr hlookup)
      exact absurd hfield (by simp)
  · intro hblank
    have hreads : FitsReads maps := by
      refine ⟨hfits.strings, fun key value hvalue ↦ ?_, hfits.hashes, fun hash fields hlookup ↦ ?_,
        fun hash fields hlookup key value hvalue ↦ ?_⟩
      · obtain ⟨hslot, rfl⟩ := hblank (.string key) value hvalue
        rw [Slot.string.inj hslot]
        exact ⟨by decide, by decide⟩
      · exact ⟨Nat.lt_succ_of_le (hnames hash (Finmap.mem_of_lookup_eq_some hlookup)),
          (hfits.hash hash fields hlookup).2⟩
      · have hslot := (hblank (.field hash key) value
          (Option.bind_eq_some_iff.mpr ⟨fields, hlookup, hvalue⟩)).1
        cases hslot
    rw [replayFile_snapshot env i hreads]
    refine List.eq_nil_iff_forall_not_mem.mpr fun cmd hcmd ↦ ?_
    rcases mem_saved_iff.mp hcmd with ⟨k, v, hvalue, hsome, -⟩ | ⟨hk, fk, fv, hvalue, -⟩
    · obtain ⟨hslot, rfl⟩ := hblank (.string k) v hvalue
      exact hsome ⟨Slot.string.inj hslot, rfl⟩
    · have hslot := (hblank (.field hk fk) fv hvalue).1
      cases hslot

/-! ### Atomic snapshots -/

/-- Whatever the file was before, and wherever a crash interrupts the snapshot, the file that is
left restores what the old file restores or the maps in memory, exactly if the maps are empty, or if
the old file restores nothing and the maps hold nothing that is replayed, or a single entry that is
complete with its first byte. Assumes: the numbers and lengths in the maps are below 2^32, and one
read gives the name of each hash. -/
theorem rdb_crash_iff (env : Environment) (i : ℕ) (previous : Option GoString) {maps : MapStore}
    (hfits : Fits maps) (hnames : ∀ hash ∈ maps.hashes, hash.length ≤ maxRW) :
    (∀ file, CrashFile previous (writeSnapshot env i maps) file →
      restored file = restored previous ∨ restored file = maps) ↔
    maps = MapStore.new ∨
      restored previous = MapStore.new ∧ (Blank maps ∨ LoneEntry maps) := by
  have hblank := commands_snapshot_eq_nil_iff env i hfits hnames
  constructor
  · intro hatomic
    have hpart {part : GoString} (hpart : part <+: (writeSnapshot env i maps).flatten) :=
      hatomic (some part) (crashFile_iff.mpr (.inr ⟨part, hpart, rfl⟩))
    by_cases hnew : maps = MapStore.new
    · exact .inl hnew
    · have hprevious : restored previous = MapStore.new :=
        (hpart List.nil_prefix).elim Eq.symm fun hmaps ↦ absurd hmaps.symm hnew
      refine .inr ⟨hprevious, ?_⟩
      by_cases hnothing : (replayFile (some (writeSnapshot env i maps).flatten)).commands = []
      · exact .inl (hblank.mp hnothing)
      · obtain ⟨part, hlonger, hfirst⟩ := exists_firstDelivery hnothing
        have hlone : LoneEntry (restored (some part)) := hfirst.loneEntry
        rcases hpart hlonger with hold | hmaps
        · exact absurd (hold.trans hprevious) hlone.ne_new
        · exact .inr (hmaps ▸ hlone)
  · intro hmaps file hfile
    have hsilent (hmaps : Blank maps) {part : GoString}
        (hpart : part <+: (writeSnapshot env i maps).flatten) :
        restored (some part) = MapStore.new := by
      rw [restored, commands_of_isPrefix hpart (hblank.mpr hmaps)]
      rfl
    rcases crashFile_iff.mp hfile with rfl | ⟨part, hpart, rfl⟩
    · exact .inl rfl
    · rcases hmaps with rfl | ⟨hprevious, hmaps | hlone⟩
      · refine .inr (hsilent (fun slot value hvalue ↦ ?_) hpart)
        rw [valueAt_new] at hvalue
        cases hvalue
      · exact .inl ((hsilent hmaps hpart).trans hprevious.symm)
      · rw [hprevious]
        -- Where the entry fits the file, its first byte is enough to restore it.
        rcases hlone with ⟨b, n, rfl | rfl⟩ | ⟨hk, rfl⟩
        · have hn := (hfits.string (b :: zeros n) [] (Finmap.lookup_insert _)).1
          rw [List.length_cons, length_zeros] at hn
          exact restored_part_key env i hn hpart
        · have hn := (hfits.string [] (b :: zeros n) (Finmap.lookup_insert _)).2
          rw [List.length_cons, length_zeros] at hn
          exact restored_part_value env i hn hpart
        · exact restored_part_field env i (hnames hk (Finmap.mem_insert.mpr (.inl rfl))) hpart

/-- The first snapshot of a single key of one byte, where the crash leaves that byte and nothing
behind it. -/
theorem rdb_crash_iff_first_byte :
    let maps := MapStore.new.set (text "a") []
    let part := (writeSnapshot stillClock 0 maps).flatten.take 20
    restored (some part) = restored none ∨ restored (some part) = maps := by
  intro maps part
  have hfits : Fits maps :=
    @fits_contents _ [⟨text "SET", [text "a", []]⟩] (by decide) (by decide)
  refine (rdb_crash_iff stillClock 0 none hfits (fun hash hhash ↦ ?_)).mpr
    (.inr ⟨rfl, .inr (.inl ⟨97, 0, .inl rfl⟩)⟩) _
    (crashFile_iff.mpr (.inr ⟨_, List.take_prefix _ _, rfl⟩))
  exact absurd hhash Finmap.notMem_empty

/-- A crash right after the file was emptied loses the old value and the new one. -/
theorem rdb_crash_lost :
    let previous :=
      some (writeSnapshot stillClock 0 (MapStore.new.set (text "a") (text "1"))).flatten
    CrashFile previous (writeSnapshot stillClock 2 (MapStore.new.set (text "a") (text "2")))
        (some []) ∧
      (restored previous).get (text "a") = (text "1", true) ∧
      (restored (some [])).get (text "a") = ([], false) := by
  intro previous
  refine ⟨crashFile_iff.mpr (.inr ⟨[], List.nil_prefix, rfl⟩), ?_, rfl⟩
  have hfits : FitsReads (MapStore.new.set (text "a") (text "1")) :=
    @fits_contents _ [⟨text "SET", [text "a", text "1"]⟩] (by decide) (by decide)
  have hreplay := replayFile_snapshot stillClock 0 hfits
  show (contents (replayFile previous).commands).get (text "a") = _
  rw [hreplay]
  exact congrArg commaOk (valueAt_saved (.string (text "a")))

end FluxCache.Persistence
