import FluxCache.Foundation.PaddedRead
import FluxCache.Persistence.Interface

/-!
# Snapshots

`RDB` keeps a copy of the strings and hashes that were written since it was made. A snapshot writes
the copy to a new file: a magic string, a version, and then the strings and the hashes behind their
numbers, in whatever order the maps are iterated. A replay reads the file with the readers of
`FluxCache.Foundation.PaddedRead`, so it takes a string that cannot be read for an empty one, and it
passes over a pair of two empty strings.

If all numbers fit their fields and every string comes with one read, that pair is the only one that
is lost: the commands that a replay of a snapshot delivers are the entries of the copy without it
(`replayFile_snapshot`, `mem_savedWrites_iff`), and so the replay rebuilds the copy except there
(`valueAt_saved`). What becomes of longer strings is the subject of
`FluxCache.Persistence.RDBLong`.
-/

set_option autoImplicit false
set_option relaxedAutoImplicit false

namespace FluxCache.Persistence

open Foundation Store

/-! ### The file -/

/-- `rdbMagic`. -/
def rdbMagic : GoString := text "FLXCRDB"

/-- `rdbVersion`. -/
def rdbVersion : ℕ := 1

/-- The writes of `writeString`. -/
def writeString (s : GoString) : List GoString := [toBytes 4 s.length, s]

/-- The writes of a key and its value. -/
def writePair (entry : GoString × GoString) : List GoString :=
  writeString entry.1 ++ writeString entry.2

/-- The writes of the loop over the hashes. Every hash is iterated in an order of its own. -/
def writeHashes (env : Environment) : ℕ → List (GoString × GoMap GoString) → List GoString
  | _, [] => []
  | i, (hk, fields) :: hashes =>
    writeString hk ++ toBytes 4 fields.keys.card ::
      ((env.entries i fields).flatMap writePair ++ writeHashes env (i + 1) hashes)

/-- The writes of `writeSnapshot` to the new file, in their order. -/
def writeSnapshot (env : Environment) (i : ℕ) (maps : MapStore) : List GoString :=
  [rdbMagic, toBytes 4 rdbVersion, toBytes 4 maps.strings.keys.card] ++
    (env.entries i maps.strings).flatMap writePair ++
    toBytes 4 maps.hashes.keys.card ::
      writeHashes env (i + 2) (env.entries (i + 1) maps.hashes)

/-- `readString`. -/
def readString : GoString → GoString × GoString := readBlock 4

/-- What a replay has delivered when it returns, and whether it returns the error of a read at the
end of the file. -/
structure Replayed where
  commands : List Command
  failed : Bool
  deriving DecidableEq

/-- Deliveries after others. -/
def Replayed.after (commands : List Command) (later : Replayed) : Replayed :=
  ⟨commands ++ later.commands, later.failed⟩

/-- What the loop over the strings makes of a pair. -/
def deliverString (k v : GoString) : List Command :=
  if k = [] ∧ v = [] then [] else [⟨text "SET", [k, v]⟩]

/-- What the loop over the fields of a hash makes of a pair. -/
def deliverField (hk fk fv : GoString) : List Command := [⟨text "HSET", [hk, fk, fv]⟩]

/-- The loop over the hashes. -/
def replayHashes : ℕ → GoString → Replayed
  | 0, _ => ⟨[], false⟩
  | n + 1, input =>
    let (hk, rest) := readString input
    match readNumber 4 rest with
    | none => ⟨[], true⟩
    | some (fieldCount, rest) =>
      let (commands, rest) := readPairs 4 (deliverField hk) fieldCount rest
      (replayHashes n rest).after commands

/-- `Replay` after the strings. -/
def replayHashSection (input : GoString) : Replayed :=
  match readNumber 4 input with
  | none => ⟨[], true⟩
  | some (hashCount, rest) => replayHashes hashCount rest

/-- `Replay` after the number of strings. -/
def replayStrings (strCount : ℕ) (input : GoString) : Replayed :=
  let (commands, rest) := readPairs 4 deliverString strCount input
  (replayHashSection rest).after commands

/-- `Replay` of a file that is not empty. Neither the magic string nor the version is looked at. -/
def replayBytes (bytes : GoString) : Replayed :=
  match readInto rdbMagic.length bytes with
  | none => ⟨[], true⟩
  | some (_, rest) =>
    match readInto 4 rest with
    | none => ⟨[], true⟩
    | some (_, rest) =>
      match readNumber 4 rest with
      | none => ⟨[], true⟩
      | some (strCount, rest) => replayStrings strCount rest

/-- `Replay` of what is at the path of the file. -/
def replayFile : Option GoString → Replayed
  | none => ⟨[], false⟩
  | some bytes => if bytes = [] then ⟨[], false⟩ else replayBytes bytes

/-! ### The snapshotter -/

/-- What is at the path of the snapshots, and how many answers of the environment were used. -/
structure RDBDisk where
  file : Option GoString
  requests : ℕ

/-- `RDB`. -/
structure RDB extends RDBDisk where
  maps : MapStore

/-- `NewRDB`. -/
def NewRDB (disk : RDBDisk) : RDB := { disk with maps := MapStore.new }

namespace RDB

/-- `RDB.Write`. -/
def write (r : RDB) (cmd : Command) : RDB :=
  if cmd.name = text "SET" then
    match cmd.args with
    | key :: value :: _ => { r with maps := r.maps.set key value }
    | _ => r
  else if cmd.name = text "HSET" then
    match cmd.args with
    | hash :: key :: value :: _ => { r with maps := r.maps.hset hash key value }
    | _ => r
  else r

/-- `RDB.Snapshot`. -/
def snapshot (env : Environment) (r : RDB) : RDB :=
  { r with
    file := some (writeSnapshot env r.requests r.maps).flatten
    requests := r.requests + 2 + r.maps.hashes.keys.card }

/-- `RDB.Replay`. -/
def replay (r : RDB) : Replayed := replayFile r.file

/-- `RDB.Close`, and the last snapshot of the loop. -/
def close (env : Environment) (r : RDB) : RDBDisk := (r.snapshot env).toRDBDisk

theorem write_eq (r : RDB) (cmd : Command) :
    r.write cmd = { r with maps := (replayWrite cmd).elim r.maps (Write.apply r.maps) } := by
  refine (switch_eq cmd (fun w ↦ { r with maps := w.apply r.maps }) r).trans ?_
  cases replayWrite cmd <;> rfl

end RDB

/-! ### What a snapshot holds -/

/-- The numbers of strings, hashes and fields are below a bound, and the lengths of all texts below
another. -/
structure FitsIn (count size : ℕ) (maps : MapStore) : Prop where
  strings : maps.strings.keys.card < count
  string : ∀ key value, maps.strings.lookup key = some value →
    key.length < size ∧ value.length < size
  hashes : maps.hashes.keys.card < count
  hash : ∀ hash fields, maps.hashes.lookup hash = some fields →
    hash.length < size ∧ fields.keys.card < count
  field : ∀ hash fields, maps.hashes.lookup hash = some fields → ∀ key value,
    fields.lookup key = some value → key.length < size ∧ value.length < size

/-- All numbers and lengths fit their fields. -/
abbrev Fits (maps : MapStore) : Prop := FitsIn (2 ^ 32) (2 ^ 32) maps

/-- All numbers fit their fields, and every text comes with one read. -/
abbrev FitsReads (maps : MapStore) : Prop := FitsIn (2 ^ 32) (maxRW + 1) maps

/-- The commands of the hashes of a snapshot. -/
def savedHashes (env : Environment) : ℕ → List (GoString × GoMap GoString) → List Command
  | _, [] => []
  | i, (hk, fields) :: hashes =>
    (env.entries i fields).flatMap (fun entry ↦ deliverField hk entry.1 entry.2) ++
      savedHashes env (i + 1) hashes

/-- The commands of a snapshot. -/
def saved (env : Environment) (i : ℕ) (maps : MapStore) : List Command :=
  (env.entries i maps.strings).flatMap (fun entry ↦ deliverString entry.1 entry.2) ++
    savedHashes env (i + 2) (env.entries (i + 1) maps.hashes)

theorem flatten_writeString (s : GoString) : (writeString s).flatten = block 4 s := by
  rw [writeString, List.flatten_cons, List.flatten_singleton, block]

theorem flatten_writePairs (entries : List (GoString × GoString)) :
    (entries.flatMap writePair).flatten =
      entries.flatMap fun entry ↦ block 4 entry.1 ++ block 4 entry.2 := by
  induction entries with
  | nil => rfl
  | cons entry entries ih =>
    rw [List.flatMap_cons, List.flatten_append, ih, writePair, List.flatten_append,
      flatten_writeString, flatten_writeString, List.flatMap_cons]

theorem flatten_writeHashes_cons (env : Environment) (i : ℕ) (hk : GoString)
    (fields : GoMap GoString) (hashes : List (GoString × GoMap GoString)) :
    (writeHashes env i ((hk, fields) :: hashes)).flatten =
      block 4 hk ++ (toBytes 4 fields.keys.card ++
        ((env.entries i fields).flatMap (fun entry ↦ block 4 entry.1 ++ block 4 entry.2) ++
          (writeHashes env (i + 1) hashes).flatten)) := by
  rw [writeHashes, List.flatten_append, List.flatten_cons, List.flatten_append, flatten_writeString,
    flatten_writePairs]

theorem flatten_writeSnapshot (env : Environment) (i : ℕ) (maps : MapStore) :
    (writeSnapshot env i maps).flatten =
      rdbMagic ++ (toBytes 4 rdbVersion ++ (toBytes 4 maps.strings.keys.card ++
        ((env.entries i maps.strings).flatMap (fun entry ↦ block 4 entry.1 ++ block 4 entry.2) ++
          (toBytes 4 maps.hashes.keys.card ++
            (writeHashes env (i + 2) (env.entries (i + 1) maps.hashes)).flatten)))) := by
  simp only [writeSnapshot, List.flatten_append, List.flatten_cons, List.flatten_nil,
    flatten_writePairs, List.append_assoc, List.nil_append]

/-- Numbers and lengths have four bytes, which come with one read. -/
theorem field_width : 4 ≠ 0 ∧ 4 ≤ maxRW := by decide

theorem whole_of_lt {s : GoString} (hs : s.length < maxRW + 1) : Whole 4 s :=
  ⟨hs.trans_le (by decide), Nat.le_of_lt_succ hs⟩

/-- A file that begins with the magic string and the version, as far as the number of strings. -/
theorem replayFile_header {strCount : ℕ} (hcount : strCount < 2 ^ 32) (rest : GoString) :
    replayFile (some (rdbMagic ++ (toBytes 4 rdbVersion ++ (toBytes 4 strCount ++ rest)))) =
      replayStrings strCount rest := by
  have hne : rdbMagic ++ (toBytes 4 rdbVersion ++ (toBytes 4 strCount ++ rest)) ≠ [] :=
    List.append_ne_nil_of_left_ne_nil (by decide) _
  rw [replayFile, if_neg hne, replayBytes, readInto_append rfl (by decide) (by decide)]
  simp only [readInto_append (length_toBytes 4 rdbVersion) field_width.1 field_width.2,
    readNumber_toBytes field_width hcount]

theorem replayHashSection_toBytes {hashCount : ℕ} (hcount : hashCount < 2 ^ 32) (rest : GoString) :
    replayHashSection (toBytes 4 hashCount ++ rest) = replayHashes hashCount rest := by
  rw [replayHashSection, readNumber_toBytes field_width hcount]

/-- Assumes: the hashes fit, and one read gives each text. They are read as they were written. -/
theorem replayHashes_written (env : Environment) (i : ℕ)
    {hashes : List (GoString × GoMap GoString)}
    (hhash : ∀ entry ∈ hashes, entry.1.length < maxRW + 1 ∧ entry.2.keys.card < 2 ^ 32)
    (hfield : ∀ entry ∈ hashes, ∀ key value, entry.2.lookup key = some value →
      key.length < maxRW + 1 ∧ value.length < maxRW + 1) :
    replayHashes hashes.length (writeHashes env i hashes).flatten =
      ⟨savedHashes env i hashes, false⟩ := by
  induction hashes generalizing i with
  | nil => rfl
  | cons entry hashes ih =>
    obtain ⟨hk, fields⟩ := entry
    obtain ⟨⟨hlength, hcount⟩, hhashes⟩ := List.forall_mem_cons.mp hhash
    obtain ⟨hpairs, hfields⟩ := List.forall_mem_cons.mp hfield
    have hentries : ∀ p ∈ env.entries i fields, Whole 4 p.1 ∧ Whole 4 p.2 := fun p hp ↦
      (hpairs p.1 p.2 (mem_entries_iff.mp hp)).imp whole_of_lt whole_of_lt
    have hread := readPairs_blocks field_width (deliverField hk) hentries
      (writeHashes env (i + 1) hashes).flatten
    rw [length_entries] at hread
    rw [flatten_writeHashes_cons, List.length_cons, replayHashes, readString,
      readBlock_block field_width (whole_of_lt hlength)]
    simp only [readNumber_toBytes field_width hcount, hread, ih (i + 1) hhashes hfields]
    rfl

/-- A replay of a snapshot delivers the entries of the maps. Assumes: the maps fit, and one read
gives each text. -/
theorem replayFile_snapshot (env : Environment) (i : ℕ) {maps : MapStore}
    (hfits : FitsReads maps) :
    replayFile (some (writeSnapshot env i maps).flatten) = ⟨saved env i maps, false⟩ := by
  have hentries : ∀ p ∈ env.entries i maps.strings, Whole 4 p.1 ∧ Whole 4 p.2 := fun p hp ↦
    (hfits.string p.1 p.2 (mem_entries_iff.mp hp)).imp whole_of_lt whole_of_lt
  have hread := readPairs_blocks field_width deliverString hentries
    (toBytes 4 maps.hashes.keys.card ++
      (writeHashes env (i + 2) (env.entries (i + 1) maps.hashes)).flatten)
  have hhashes := @replayHashes_written env (i + 2) (env.entries (i + 1) maps.hashes)
    (fun entry hentry ↦ hfits.hash _ _ (mem_entries_iff.mp hentry))
    (fun entry hentry ↦ hfits.field _ _ (mem_entries_iff.mp hentry))
  rw [length_entries] at hread hhashes
  rw [flatten_writeSnapshot, replayFile_header hfits.strings, replayStrings, hread]
  simp only [replayHashSection_toBytes hfits.hashes, hhashes]
  rfl

/-! ### What a replay rebuilds -/

section Rebuilt

variable {env : Environment} {i : ℕ} {maps : MapStore}

theorem mem_deliverString_iff {k v : GoString} {cmd : Command} :
    cmd ∈ deliverString k v ↔ ¬ (k = [] ∧ v = []) ∧ cmd = ⟨text "SET", [k, v]⟩ := by
  rw [deliverString]
  split
  · rename_i hempty
    exact iff_of_false List.not_mem_nil fun h ↦ h.1 hempty
  · rename_i hsome
    rw [List.mem_singleton]
    exact ⟨fun h ↦ ⟨hsome, h⟩, And.right⟩

theorem mem_savedHashes_iff {hashes : List (GoString × GoMap GoString)} {cmd : Command} :
    cmd ∈ savedHashes env i hashes ↔ ∃ hk fields, (hk, fields) ∈ hashes ∧
      ∃ fk fv, fields.lookup fk = some fv ∧ cmd = ⟨text "HSET", [hk, fk, fv]⟩ := by
  induction hashes generalizing i with
  | nil => simp [savedHashes]
  | cons entry hashes ih =>
    obtain ⟨hk, fields⟩ := entry
    rw [savedHashes, List.mem_append, ih, List.mem_flatMap]
    constructor
    · rintro (⟨⟨fk, fv⟩, hentry, hcmd⟩ | ⟨hk', fields', hmem, hfield⟩)
      · exact ⟨hk, fields, List.mem_cons_self, fk, fv, mem_entries_iff.mp hentry,
          List.mem_singleton.mp hcmd⟩
      · exact ⟨hk', fields', .tail _ hmem, hfield⟩
    · rintro ⟨hk', fields', hmem, fk, fv, hlookup, hcmd⟩
      rcases List.mem_cons.mp hmem with heq | hmem
      · obtain ⟨rfl, rfl⟩ := Prod.mk.inj heq
        exact .inl ⟨(fk, fv), mem_entries_iff.mpr hlookup, List.mem_singleton.mpr hcmd⟩
      · exact .inr ⟨hk', fields', hmem, fk, fv, hlookup, hcmd⟩

/-- The commands of a snapshot are the entries of the maps without the pair of two empty strings. -/
theorem mem_saved_iff {cmd : Command} :
    cmd ∈ saved env i maps ↔
      (∃ k v, maps.valueAt (.string k) = some v ∧ ¬ (k = [] ∧ v = []) ∧
        cmd = ⟨text "SET", [k, v]⟩) ∨
      ∃ hk fk fv, maps.valueAt (.field hk fk) = some fv ∧ cmd = ⟨text "HSET", [hk, fk, fv]⟩ := by
  rw [saved, List.mem_append, List.mem_flatMap, mem_savedHashes_iff]
  refine or_congr ⟨?_, ?_⟩ ⟨?_, ?_⟩
  · rintro ⟨⟨k, v⟩, hentry, hcmd⟩
    exact ⟨k, v, mem_entries_iff.mp hentry, mem_deliverString_iff.mp hcmd⟩
  · rintro ⟨k, v, hlookup, hcmd⟩
    exact ⟨(k, v), mem_entries_iff.mpr hlookup, mem_deliverString_iff.mpr hcmd⟩
  · rintro ⟨hk, fields, hmem, fk, fv, hlookup, hcmd⟩
    exact ⟨hk, fk, fv, Option.bind_eq_some_iff.mpr ⟨fields, mem_entries_iff.mp hmem, hlookup⟩, hcmd⟩
  · rintro ⟨hk, fk, fv, hvalue, hcmd⟩
    obtain ⟨fields, hfields, hlookup⟩ := Option.bind_eq_some_iff.mp hvalue
    exact ⟨hk, fields, mem_entries_iff.mpr hfields, fk, fv, hlookup, hcmd⟩

/-- The same for the writes that the commands stand for. -/
theorem mem_savedWrites_iff {w : Write} :
    w ∈ (saved env i maps).filterMap replayWrite ↔
      maps.valueAt w.slot = some w.value ∧ w ≠ .set [] [] := by
  rw [List.mem_filterMap]
  constructor
  · rintro ⟨cmd, hcmd, hwrite⟩
    rcases mem_saved_iff.mp hcmd with ⟨k, v, hvalue, hsome, rfl⟩ | ⟨hk, fk, fv, hvalue, rfl⟩
    · obtain rfl := Option.some.inj hwrite
      exact ⟨hvalue, fun heq ↦ hsome (Write.set.inj heq)⟩
    · obtain rfl := Option.some.inj hwrite
      exact ⟨hvalue, nofun⟩
  · rintro ⟨hvalue, hne⟩
    cases w with
    | set k v =>
      refine ⟨⟨text "SET", [k, v]⟩, mem_saved_iff.mpr (.inl ⟨k, v, hvalue, ?_, rfl⟩), rfl⟩
      rintro ⟨rfl, rfl⟩
      exact hne rfl
    | hset hk fk fv =>
      exact ⟨⟨text "HSET", [hk, fk, fv]⟩, mem_saved_iff.mpr (.inr ⟨hk, fk, fv, hvalue, rfl⟩), rfl⟩

/-- The commands of a snapshot rebuild the maps except for an empty string under the empty key. -/
theorem valueAt_saved (slot : Slot) :
    (contents (saved env i maps)).valueAt slot =
      if slot = .string [] ∧ maps.valueAt slot = some [] then none else maps.valueAt slot := by
  have hconsistent : ∀ w ∈ (saved env i maps).filterMap replayWrite,
      maps.valueAt w.slot = some w.value := fun w hw ↦ (mem_savedWrites_iff.mp hw).1
  by_cases hwritten : ∃ w ∈ (saved env i maps).filterMap replayWrite, w.slot = slot
  · rw [contents, valueAt_writeAll_of_consistent hconsistent hwritten]
    obtain ⟨w, hw, rfl⟩ := hwritten
    obtain ⟨hvalue, hne⟩ := mem_savedWrites_iff.mp hw
    refine (if_neg ?_).symm
    rintro ⟨hslot, hempty⟩
    cases w with
    | hset hk fk fv => cases hslot
    | set k v =>
      obtain rfl := Slot.string.inj hslot
      obtain rfl := Option.some.inj (hvalue.symm.trans hempty)
      exact hne rfl
  · have hnone : (contents (saved env i maps)).valueAt slot = none :=
      valueAt_writeAll_eq_none_iff.mpr ⟨valueAt_new slot, fun w hw hslot ↦ hwritten ⟨w, hw, hslot⟩⟩
    rw [hnone]
    split
    · rfl
    · rename_i hother
      by_contra hsome
      obtain ⟨value, hvalue⟩ := Option.ne_none_iff_exists'.mp (Ne.symm hsome)
      refine hwritten ?_
      cases slot with
      | string k =>
        refine ⟨.set k value, mem_savedWrites_iff.mpr ⟨hvalue, fun heq ↦ ?_⟩, rfl⟩
        obtain ⟨rfl, rfl⟩ := Write.set.inj heq
        exact hother ⟨rfl, hvalue⟩
      | field hk fk =>
        refine ⟨.hset hk fk value, mem_savedWrites_iff.mpr ⟨hvalue, fun heq ↦ ?_⟩, rfl⟩
        cases heq

/-- The commands of a snapshot rebuild the maps exactly if there is no empty string under the empty
key. Assumes: no hash is empty. -/
theorem contents_saved_iff (hmaps : maps.NoEmptyHash) :
    contents (saved env i maps) = maps ↔ maps.valueAt (.string []) ≠ some [] := by
  constructor
  · intro hsame hempty
    have hslot := @valueAt_saved env i maps (.string [])
    rw [hsame, if_pos ⟨rfl, hempty⟩, hempty] at hslot
    exact absurd hslot nofun
  · intro hfull
    refine MapStore.eq_of_valueAt (noEmptyHash_contents _) hmaps fun slot ↦ ?_
    rw [valueAt_saved]
    refine if_neg ?_
    rintro ⟨rfl, hempty⟩
    exact hfull hempty

end Rebuilt

/-! ### Commands that fit -/

/-- The lengths of the texts of a write are below a bound. -/
def Short (size : ℕ) : Write → Prop
  | .set key value => key.length < size ∧ value.length < size
  | .hset hash key value => hash.length < size ∧ key.length < size ∧ value.length < size

instance (size : ℕ) (w : Write) : Decidable (Short size w) := by
  cases w <;> exact inferInstanceAs (Decidable (_ ∧ _))

theorem FitsIn.mono {count count' size : ℕ} {maps : MapStore} (h : FitsIn count size maps)
    (hle : count ≤ count') : FitsIn count' size maps where
  strings := h.strings.trans_le hle
  string := h.string
  hashes := h.hashes.trans_le hle
  hash := fun hash fields hlookup ↦
    ⟨(h.hash hash fields hlookup).1, (h.hash hash fields hlookup).2.trans_le hle⟩
  field := h.field

/-- A short write adds at most one entry to each map. -/
theorem FitsIn.apply {count size : ℕ} {maps : MapStore} (h : FitsIn count size maps) {w : Write}
    (hw : Short size w) : FitsIn (count + 1) size (w.apply maps) := by
  have hmore := h.mono (Nat.le_succ count)
  cases w with
  | set key value =>
    refine ⟨?_, fun k v hlookup ↦ ?_, hmore.hashes, hmore.hash, hmore.field⟩
    · exact (card_keys_insert_le maps.strings key value).trans_lt (Nat.succ_lt_succ h.strings)
    · rcases lookup_insert_cases hlookup with ⟨rfl, rfl⟩ | hold
      · exact hw
      · exact h.string k v hold
  | hset hash key value =>
    obtain ⟨hhash, hkey, hvalue⟩ := hw
    refine ⟨hmore.strings, hmore.string, ?_, fun hk fields hlookup ↦ ?_,
      fun hk fields hlookup fk fv hfield ↦ ?_⟩
    · exact (card_keys_insert_le maps.hashes hash _).trans_lt (Nat.succ_lt_succ h.hashes)
    · rcases lookup_insert_cases hlookup with ⟨rfl, rfl⟩ | hold
      · refine ⟨hhash, (card_keys_insert_le _ key value).trans_lt (Nat.succ_lt_succ ?_)⟩
        cases hfields : maps.hashes.lookup hk with
        | none => exact (Nat.zero_le _).trans_lt h.hashes
        | some fields => exact (h.hash hk fields hfields).2
      · exact hmore.hash hk fields hold
    · rcases lookup_insert_cases hlookup with ⟨rfl, rfl⟩ | hold
      · rcases lookup_insert_cases hfield with ⟨rfl, rfl⟩ | hold
        · exact ⟨hkey, hvalue⟩
        · cases hfields : maps.hashes.lookup hk with
          | none =>
            rw [hfields] at hold
            exact absurd hold (by simp)
          | some fields =>
            rw [hfields] at hold
            exact h.field hk fields hfields fk fv hold
      · exact h.field hk fields hold fk fv hfield

/-- Fewer than 2^32 commands with short texts leave maps that fit. -/
theorem fits_contents {size : ℕ} {cmds : List Command} (hcount : cmds.length < 2 ^ 32)
    (hshort : ∀ w ∈ cmds.filterMap replayWrite, Short size w) :
    FitsIn (2 ^ 32) size (contents cmds) := by
  have hall {writes : List Write} (hwrites : ∀ w ∈ writes, Short size w) :
      FitsIn (writes.length + 1) size (writeAll MapStore.new writes) := by
    induction writes using List.reverseRecOn with
    | nil => exact ⟨Nat.one_pos, nofun, Nat.one_pos, nofun, nofun⟩
    | append_singleton writes w ih =>
      obtain ⟨hbefore, hw⟩ := List.forall_mem_append.mp hwrites
      rw [writeAll_append, List.length_append]
      exact (ih hbefore).apply (List.forall_mem_singleton.mp hw)
  exact (hall hshort).mono ((Nat.succ_le_succ (List.length_filterMap_le _ _)).trans hcount)

/-! ### A snapshot of a history -/

theorem RDB.maps_writes (r : RDB) (cmds : List Command) :
    cmds.foldl RDB.write r = { r with maps := writeAll r.maps (cmds.filterMap replayWrite) } := by
  induction cmds generalizing r with
  | nil => rfl
  | cons cmd cmds ih =>
    rw [List.foldl_cons, ih, RDB.write_eq, List.filterMap_cons]
    cases replayWrite cmd <;> rfl

end FluxCache.Persistence
