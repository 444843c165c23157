import FluxCache.Foundation.ShiftedRead
import FluxCache.Persistence.RDB

/-!
# Snapshots and the history of commands

`readString` reads a string with one call of `Read`, which gives at most `maxRW` bytes, and does not
look at how many it got. A snapshot with longer strings is therefore not read as it was written. The
bytes that are left behind shift everything after them, and which strings are then found depends on
the order in which the maps were iterated.

A snapshot is restored in every such order only if each string comes with one read, or if a single
string does not, its missing bytes are zeros, and nothing but zeros is ever written behind it
(`LoneLong`, `restores_iff`). For the converse one order is enough: the entry with the long string
comes first, and then the others by the lengths of their keys. Behind the zeros that the long string
leaves, every key is found shorter than it is, and no key is as short as the first one that is found
there.
-/

set_option autoImplicit false
set_option relaxedAutoImplicit false

namespace FluxCache.Persistence

open Foundation Store

/-! ### What a replay finds -/

/-- The hashes that the loop over the hashes finds: the name of each, and its fields. -/
def hashesOf : ℕ → GoString → List (GoString × List (GoString × GoString))
  | 0, _ => []
  | n + 1, input =>
    match readNumber 4 (readString input).2 with
    | none => []
    | some (fieldCount, rest) =>
      ((readString input).1, (pairsOf 4 fieldCount rest).1) ::
        hashesOf n (pairsOf 4 fieldCount rest).2

/-- The hashes that are found behind the strings. -/
def hashSectionOf (input : GoString) : List (GoString × List (GoString × GoString)) :=
  match readNumber 4 input with
  | none => []
  | some (hashCount, rest) => hashesOf hashCount rest

/-- The commands for the strings that are found. -/
def stringCommands (strings : List (GoString × GoString)) : List Command :=
  strings.flatMap fun p ↦ deliverString p.1 p.2

/-- The commands for the hashes that are found. -/
def fieldCommands (hashes : List (GoString × List (GoString × GoString))) : List Command :=
  hashes.flatMap fun hash ↦ hash.2.flatMap fun p ↦ deliverField hash.1 p.1 p.2

theorem commands_replayHashes (n : ℕ) (input : GoString) :
    (replayHashes n input).commands = fieldCommands (hashesOf n input) := by
  induction n generalizing input with
  | zero => rfl
  | succ n ih =>
    rw [replayHashes, hashesOf]
    rcases readString input with ⟨hk, rest⟩
    dsimp only
    rcases readNumber 4 rest with _ | ⟨fieldCount, rest⟩
    · rfl
    · dsimp only
      rw [readPairs_eq, Replayed.after, ih]
      rfl

theorem commands_replayHashSection (input : GoString) :
    (replayHashSection input).commands = fieldCommands (hashSectionOf input) := by
  rw [replayHashSection, hashSectionOf]
  rcases readNumber 4 input with _ | ⟨hashCount, rest⟩
  · rfl
  · exact commands_replayHashes hashCount rest

theorem commands_replayStrings (n : ℕ) (input : GoString) :
    (replayStrings n input).commands =
      stringCommands (pairsOf 4 n input).1 ++
        fieldCommands (hashSectionOf (pairsOf 4 n input).2) := by
  rw [replayStrings, readPairs_eq]
  dsimp only
  rw [Replayed.after, commands_replayHashSection]
  rfl

/-- One turn of the loop over the hashes. -/
theorem hashesOf_succ {n fieldCount : ℕ} {input hk rest fields : GoString}
    (hname : readString input = (hk, rest))
    (hcount : readNumber 4 rest = some (fieldCount, fields)) :
    hashesOf (n + 1) input =
      (hk, (pairsOf 4 fieldCount fields).1) :: hashesOf n (pairsOf 4 fieldCount fields).2 := by
  rw [hashesOf, hname]
  dsimp only
  rw [hcount]

/-- A hash whose name comes with one read, with the fields that are found behind it. -/
theorem hashesOf_writeHashes {env : Environment} {j n : ℕ} {hk : GoString}
    {fields : GoMap GoString} {others : List (GoString × GoMap GoString)}
    (hname : hk.length ≤ maxRW) (hcount : fields.keys.card < 2 ^ 32)
    {found : List (GoString × GoString)} {after : GoString}
    (hfound : pairsOf 4 fields.keys.card
      (blocks 4 (env.entries j fields) ++ (writeHashes env (j + 1) others).flatten) =
        (found, after)) :
    hashesOf (n + 1) (writeHashes env j ((hk, fields) :: others)).flatten =
      (hk, found) :: hashesOf n after := by
  have hwhole : Whole 4 hk := whole_of_lt (Nat.lt_succ_of_le hname)
  rw [flatten_writeHashes_cons, hashesOf_succ (readBlock_block field_width hwhole _)
    (readNumber_toBytes field_width hcount _)]
  exact congrArg (fun p ↦ (hk, p.1) :: hashesOf n p.2) hfound

theorem length_hashesOf_le (n : ℕ) (input : GoString) : (hashesOf n input).length ≤ n := by
  induction n generalizing input with
  | zero => exact Nat.le_refl 0
  | succ n ih =>
    rw [hashesOf]
    split
    · exact Nat.zero_le _
    · exact Nat.succ_le_succ (ih _)

/-- Only strings with a tail of zeros are found in the hashes. -/
theorem zeroTail_hashesOf {n : ℕ} {input : GoString}
    {hash : GoString × List (GoString × GoString)} (hhash : hash ∈ hashesOf n input) :
    ZeroTail hash.1 ∧ ∀ p ∈ hash.2, ZeroTail p.1 ∧ ZeroTail p.2 := by
  induction n generalizing input with
  | zero => exact absurd hhash List.not_mem_nil
  | succ n ih =>
    rw [hashesOf] at hhash
    split at hhash
    · exact absurd hhash List.not_mem_nil
    · rcases List.mem_cons.mp hhash with rfl | hhash
      · exact ⟨zeroTail_readBlock 4 input, fun p hp ↦ zeroTail_pairsOf hp⟩
      · exact ih hhash

theorem card_fields_ne_zero {maps : MapStore} (hnone : maps.NoEmptyHash) {hk : GoString}
    {fields : GoMap GoString} (hlookup : maps.hashes.lookup hk = some fields) :
    fields.keys.card ≠ 0 := by
  rw [← length_entries stillClock 0, Ne, List.length_eq_zero_iff, entries_eq_nil_iff]
  exact hnone hk fields hlookup

/-! ### What must be found -/

section Found

variable {strings : List (GoString × GoString)}
  {hashes : List (GoString × List (GoString × GoString))} {maps : MapStore}
  (hmaps : contents (stringCommands strings ++ fieldCommands hashes) = maps)

include hmaps

/-- A string that is restored is found, and is not the pair of two empty strings. -/
theorem mem_strings_of_restored {k v : GoString} (hlookup : maps.strings.lookup k = some v) :
    (k, v) ∈ strings ∧ ¬ (k = [] ∧ v = []) := by
  have hvalue : maps.valueAt (.string k) = some v := hlookup
  rw [← hmaps] at hvalue
  obtain ⟨w, hw, hslot, rfl⟩ := exists_write_of_valueAt hvalue
  obtain ⟨cmd, hcmd, hwrite⟩ := List.mem_filterMap.mp hw
  rcases List.mem_append.mp hcmd with hcmd | hcmd
  · obtain ⟨p, hp, hcmd⟩ := List.mem_flatMap.mp hcmd
    obtain ⟨hsome, rfl⟩ := mem_deliverString_iff.mp hcmd
    obtain rfl : .set p.1 p.2 = w := Option.some.inj hwrite
    obtain rfl := Slot.string.inj hslot
    exact ⟨hp, hsome⟩
  · obtain ⟨hash, -, hcmd⟩ := List.mem_flatMap.mp hcmd
    obtain ⟨p, -, hcmd⟩ := List.mem_flatMap.mp hcmd
    obtain rfl := List.mem_singleton.mp hcmd
    obtain rfl : .hset hash.1 p.1 p.2 = w := Option.some.inj hwrite
    cases hslot

/-- A field that is restored is found in a hash with the right name. -/
theorem mem_hashes_of_restored {hk fk fv : GoString} {fields : GoMap GoString}
    (hfields : maps.hashes.lookup hk = some fields) (hlookup : fields.lookup fk = some fv) :
    ∃ hash ∈ hashes, hash.1 = hk ∧ (fk, fv) ∈ hash.2 := by
  have hvalue : maps.valueAt (.field hk fk) = some fv :=
    Option.bind_eq_some_iff.mpr ⟨fields, hfields, hlookup⟩
  rw [← hmaps] at hvalue
  obtain ⟨w, hw, hslot, rfl⟩ := exists_write_of_valueAt hvalue
  obtain ⟨cmd, hcmd, hwrite⟩ := List.mem_filterMap.mp hw
  rcases List.mem_append.mp hcmd with hcmd | hcmd
  · obtain ⟨p, hp, hcmd⟩ := List.mem_flatMap.mp hcmd
    obtain ⟨-, rfl⟩ := mem_deliverString_iff.mp hcmd
    obtain rfl : .set p.1 p.2 = w := Option.some.inj hwrite
    cases hslot
  · obtain ⟨hash, hhash, hcmd⟩ := List.mem_flatMap.mp hcmd
    obtain ⟨p, hp, hcmd⟩ := List.mem_flatMap.mp hcmd
    obtain rfl := List.mem_singleton.mp hcmd
    obtain rfl : .hset hash.1 p.1 p.2 = w := Option.some.inj hwrite
    obtain ⟨rfl, rfl⟩ := Slot.field.inj hslot
    exact ⟨hash, hhash, rfl, hp⟩

/-- As many pairs as there are strings are the strings. -/
theorem perm_strings {entries : List (GoString × GoString)}
    (hnodup : (entries.map Prod.fst).Nodup)
    (hmem : ∀ k v, (k, v) ∈ entries ↔ maps.strings.lookup k = some v)
    (hlength : strings.length ≤ entries.length) : strings.Perm entries := by
  have hsubset : entries ⊆ strings := fun p hp ↦
    (mem_strings_of_restored hmaps ((hmem p.1 p.2).mp hp)).1
  exact ((List.subperm_of_subset (List.Nodup.of_map _ hnodup) hsubset).perm_of_length_le
    hlength).symm

section Names

variable (hnone : maps.NoEmptyHash) {written : List (GoString × GoMap GoString)}
  (hmem : ∀ hk fields, (hk, fields) ∈ written ↔ maps.hashes.lookup hk = some fields)
  (hnodup : (written.map Prod.fst).Nodup)

include hnone hmem

theorem names_subset : written.map Prod.fst ⊆ hashes.map Prod.fst := by
  intro hk hhk
  obtain ⟨⟨hk, fields⟩, hentry, rfl⟩ := List.mem_map.mp hhk
  have hlookup := (hmem hk fields).mp hentry
  obtain ⟨fk, fv, hfield⟩ := exists_field_of_ne_empty (hnone hk fields hlookup)
  obtain ⟨hash, hhash, rfl, -⟩ := mem_hashes_of_restored hmaps hlookup hfield
  exact List.mem_map_of_mem hhash

include hnodup

/-- There are not fewer hashes found than written. -/
theorem length_written_le : written.length ≤ hashes.length := by
  have hle := (List.subperm_of_subset hnodup (names_subset hmaps hnone hmem)).length_le
  rwa [List.length_map, List.length_map] at hle

/-- As many hashes as are written have the names of these. -/
theorem perm_names (hlength : hashes.length ≤ written.length) :
    (hashes.map Prod.fst).Perm (written.map Prod.fst) := by
  refine ((List.subperm_of_subset hnodup
    (names_subset hmaps hnone hmem)).perm_of_length_le ?_).symm
  rwa [List.length_map, List.length_map]

/-- The fields of a hash are all found in one place. -/
theorem fields_subset (hlength : hashes.length ≤ written.length)
    {hash : GoString × List (GoString × GoString)} (hhash : hash ∈ hashes)
    {fields : GoMap GoString} (hlookup : maps.hashes.lookup hash.1 = some fields)
    {fk fv : GoString} (hfield : fields.lookup fk = some fv) : (fk, fv) ∈ hash.2 := by
  obtain ⟨other, hother, hname, hp⟩ := mem_hashes_of_restored hmaps hlookup hfield
  have hnames : (hashes.map Prod.fst).Nodup :=
    (perm_names hmaps hnone hmem hnodup hlength).nodup_iff.mpr hnodup
  rwa [List.inj_on_of_nodup_map hnames hother hhash hname] at hp

/-- There are not fewer fields found in a hash than it has. -/
theorem card_fields_le (hlength : hashes.length ≤ written.length)
    {hash : GoString × List (GoString × GoString)} (hhash : hash ∈ hashes)
    {fields : GoMap GoString} (hlookup : maps.hashes.lookup hash.1 = some fields) :
    fields.keys.card ≤ hash.2.length := by
  have hsubset : stillClock.entries 0 fields ⊆ hash.2 := fun p hp ↦
    fields_subset hmaps hnone hmem hnodup hlength hhash hlookup (mem_entries_iff.mp hp)
  have hle := (List.subperm_of_subset
    (List.Nodup.of_map _ (nodup_keys_entries stillClock 0 fields)) hsubset).length_le
  rwa [length_entries] at hle

end Names

end Found

/-! ### What a snapshot shows to a replay -/

/-- A replay of a snapshot restores the maps. -/
def Restores (env : Environment) (i : ℕ) (maps : MapStore) : Prop :=
  contents (replayFile (some (writeSnapshot env i maps).flatten)).commands = maps

/-- The part of a snapshot behind the strings. -/
def hashBytes (env : Environment) (i : ℕ) (maps : MapStore) : GoString :=
  toBytes 4 maps.hashes.keys.card ++
    (writeHashes env (i + 2) (env.entries (i + 1) maps.hashes)).flatten

/-- The strings that are found in a snapshot, and the input behind them. -/
def stringsIn (env : Environment) (i : ℕ) (maps : MapStore) :
    List (GoString × GoString) × GoString :=
  pairsOf 4 maps.strings.keys.card
    (blocks 4 (env.entries i maps.strings) ++ hashBytes env i maps)

theorem commands_snapshot (env : Environment) (i : ℕ) {maps : MapStore}
    (hcount : maps.strings.keys.card < 2 ^ 32) :
    (replayFile (some (writeSnapshot env i maps).flatten)).commands =
      stringCommands (stringsIn env i maps).1 ++
        fieldCommands (hashSectionOf (stringsIn env i maps).2) := by
  rw [flatten_writeSnapshot, replayFile_header hcount, commands_replayStrings]
  rfl

section Long

variable {i : ℕ} {maps : MapStore} (hfits : Fits maps) (hnone : maps.NoEmptyHash)
  (hall : ∀ env, Restores env i maps)

include hfits hall

theorem contents_found (env : Environment) :
    contents (stringCommands (stringsIn env i maps).1 ++
      fieldCommands (hashSectionOf (stringsIn env i maps).2)) = maps := by
  rw [← commands_snapshot env i hfits.strings]
  exact hall env

theorem zeroTail_of_string {k v : GoString} (hlookup : maps.strings.lookup k = some v) :
    ZeroTail k ∧ ZeroTail v :=
  zeroTail_pairsOf (mem_strings_of_restored (contents_found hfits hall stillClock) hlookup).1

theorem lookup_nil_ne : maps.strings.lookup [] ≠ some [] := fun hlookup ↦
  (mem_strings_of_restored (contents_found hfits hall stillClock) hlookup).2 ⟨rfl, rfl⟩

theorem zeroTail_of_field {hk fk fv : GoString} {fields : GoMap GoString}
    (hfields : maps.hashes.lookup hk = some fields) (hlookup : fields.lookup fk = some fv) :
    ZeroTail hk ∧ ZeroTail fk ∧ ZeroTail fv := by
  obtain ⟨hash, hhash, rfl, hp⟩ :=
    mem_hashes_of_restored (contents_found hfits hall stillClock) hfields hlookup
  rw [hashSectionOf] at hhash
  split at hhash
  · exact absurd hhash List.not_mem_nil
  · obtain ⟨hname, hpairs⟩ := zeroTail_hashesOf hhash
    exact ⟨hname, hpairs _ hp⟩

include hnone

/-- A string entry that one read does not give is the only entry. -/
theorem string_of_long {k v : GoString} (hlookup : maps.strings.lookup k = some v)
    (hlong : maxRW < k.length ∨ maxRW < v.length) :
    Trailing k v ∧ maps = MapStore.new.set k v := by
  obtain ⟨others, hnodup, hmem, hsorted⟩ := exists_entries_first hlookup
  let env := stillClock.arrange fun _ ↦ ((k, v) :: others).map Prod.fst
  have hentries : env.entries i maps.strings = (k, v) :: others :=
    entries_arrange stillClock hnodup hmem rfl
  have hcard : maps.strings.keys.card = others.length + 1 := by
    rw [← length_entries env i, hentries, List.length_cons]
  have hfound := contents_found hfits hall env
  have hin : stringsIn env i maps = pairsOf 4 (others.length + 1)
      (blocks 4 ((k, v) :: others) ++ hashBytes env i maps) := by
    rw [stringsIn, hcard, hentries]
  rw [hin] at hfound
  have hperm := perm_strings hfound hnodup hmem (length_pairsOf _ _).le
  obtain ⟨htrailing, hempty, t, ht, hrest⟩ := pairs_of_long field_width
    (fun p hp ↦ hfits.string p.1 p.2 ((hmem p.1 p.2).mp hp))
    (zeroTail_of_string hfits hall hlookup) hlong hsorted hnodup hperm
  have hnil : others = [] := by
    refine List.eq_nil_iff_forall_not_mem.mpr fun p hp ↦ ?_
    obtain rfl := hempty p hp
    exact lookup_nil_ne hfits hall ((hmem [] []).mp (List.mem_cons_of_mem _ hp))
  -- The number of the hashes is read behind zeros.
  have hhashes : maps.hashes.keys.card = 0 := by
    have hle := length_written_le hfound hnone (fun _ _ ↦ mem_entries_iff)
      (nodup_keys_entries env (i + 1) maps.hashes)
    rw [length_entries, hrest, hashBytes, hashSectionOf] at hle
    rcases readNumber_behind field_width hfits.hashes ht
      (writeHashes env (i + 2) (env.entries (i + 1) maps.hashes)).flatten with
      ⟨n, rest, hread, hlt⟩ | ⟨hzero, -⟩
    · rw [hread] at hle
      exact absurd (hle.trans (length_hashesOf_le n rest)) (Nat.not_le.mpr hlt)
    · exact hzero
  refine ⟨htrailing, MapStore.ext (Finmap.ext_lookup fun key ↦ ?_) ?_⟩
  · show maps.strings.lookup key = ((∅ : GoMap GoString).insert k v).lookup key
    by_cases hkey : key = k
    · rw [hkey, hlookup, Finmap.lookup_insert]
    · rw [Finmap.lookup_insert_of_ne _ hkey, Finmap.lookup_empty]
      by_contra hsome
      obtain ⟨value, hvalue⟩ := Option.ne_none_iff_exists'.mp hsome
      rw [← hmem, hnil, List.mem_singleton] at hvalue
      exact hkey (Prod.mk.inj hvalue).1
  · have hentries := length_entries env i maps.hashes
    rw [hhashes, List.length_eq_zero_iff] at hentries
    exact entries_eq_nil_iff.mp hentries

/-! ### Hashes -/

omit hall in
/-- Hashes that are found behind zeros, in order of the lengths of their names: there are none. -/
theorem eq_nil_of_hashes_behind {env : Environment} {j t : ℕ}
    {first : GoString × GoMap GoString} {found : GoString × List (GoString × GoString)}
    {others : List (GoString × GoMap GoString)} {strings : List (GoString × GoString)} (ht : 0 < t)
    (hfound : contents (stringCommands strings ++ fieldCommands (found ::
      hashesOf others.length (zeros t ++ (writeHashes env j others).flatten))) = maps)
    (hname : found.1 = first.1)
    (hmem : ∀ hk fields, (hk, fields) ∈ first :: others ↔ maps.hashes.lookup hk = some fields)
    (hnodup : ((first :: others).map Prod.fst).Nodup)
    (hsorted : others.Pairwise fun p q ↦ p.1.length ≤ q.1.length) : others = [] := by
  cases others with
  | nil => rfl
  | cons second others =>
    exfalso
    obtain ⟨hk, fields⟩ := second
    have hlookup := (hmem hk fields).mp (List.mem_cons_of_mem _ List.mem_cons_self)
    obtain ⟨hlength, hcount⟩ := hfits.hash hk fields hlookup
    have hle : (found :: hashesOf ((hk, fields) :: others).length
        (zeros t ++ (writeHashes env j ((hk, fields) :: others)).flatten)).length ≤
          (first :: (hk, fields) :: others).length :=
      Nat.succ_le_succ (length_hashesOf_le _ _)
    have hperm := perm_names hfound hnone hmem hnodup hle
    rw [List.map_cons, List.map_cons, hname, List.perm_cons] at hperm
    have hfields := @card_fields_le _ _ _ hfound hnone _ hmem hnodup hle
    obtain ⟨body, hbody⟩ : ∃ body, (writeHashes env j ((hk, fields) :: others)).flatten =
        block 4 hk ++ (toBytes 4 fields.keys.card ++ body) :=
      ⟨_, flatten_writeHashes_cons env j hk fields others⟩
    rw [hbody, List.length_cons] at hperm hfields
    rcases readBlock_behind field_width hlength ht (toBytes 4 fields.keys.card ++ body) with
      hshort | ⟨rfl, hread⟩
    · -- No name is as short as the one that is found.
      cases hnumber : readNumber 4 (readString
          (zeros t ++ (block 4 hk ++ (toBytes 4 fields.keys.card ++ body)))).2 with
      | none =>
        rw [hashesOf, hnumber] at hperm
        exact absurd hperm.length_eq (by simp)
      | some number =>
        rw [hashesOf_succ rfl hnumber] at hperm
        obtain ⟨q, hq, hname⟩ := List.mem_map.mp (hperm.subset List.mem_cons_self)
        rcases List.mem_cons.mp hq with rfl | hq
        · exact absurd (congrArg List.length hname).symm hshort.ne
        · have hle := (List.pairwise_cons.mp hsorted).1 q hq
          rw [hname] at hle
          exact absurd hle (Nat.not_le.mpr hshort)
    · rcases readNumber_behind field_width hcount ht body with
        ⟨n, rest, hnumber, hlt⟩ | ⟨hzero, -⟩
      · rw [hashesOf_succ hread hnumber] at hfields
        have hle := hfields (List.mem_cons_of_mem _ List.mem_cons_self) hlookup
        rw [length_pairsOf] at hle
        exact absurd hle (Nat.not_le.mpr hlt)
      · exact card_fields_ne_zero hnone hlookup hzero

section Hashes

variable (hstrings : ∀ k v, maps.strings.lookup k = some v → k.length ≤ maxRW ∧ v.length ≤ maxRW)

include hstrings

omit hfits hall hnone in
/-- Strings that come with one read are found as they were written. -/
theorem stringsIn_eq (env : Environment) :
    stringsIn env i maps = (env.entries i maps.strings, hashBytes env i maps) := by
  have hentries : ∀ p ∈ env.entries i maps.strings, Whole 4 p.1 ∧ Whole 4 p.2 := fun p hp ↦
    (hstrings p.1 p.2 (mem_entries_iff.mp hp)).imp (fun h ↦ whole_of_lt (Nat.lt_succ_of_le h))
      fun h ↦ whole_of_lt (Nat.lt_succ_of_le h)
  have hread := readPairs_blocks field_width (fun k v ↦ [(k, v)]) hentries (hashBytes env i maps)
  rw [length_entries, List.flatMap_singleton'] at hread
  exact hread

omit hall hnone in
theorem hashSectionOf_stringsIn (env : Environment) :
    hashSectionOf (stringsIn env i maps).2 = hashesOf (env.entries (i + 1) maps.hashes).length
      (writeHashes env (i + 2) (env.entries (i + 1) maps.hashes)).flatten := by
  rw [stringsIn_eq hstrings, hashSectionOf, hashBytes,
    readNumber_toBytes field_width hfits.hashes, length_entries]

/-- The name of a hash comes with one read. -/
theorem length_name_le {hk : GoString} {fields : GoMap GoString}
    (hlookup : maps.hashes.lookup hk = some fields) : hk.length ≤ maxRW := by
  by_contra hlong
  have hlong := Nat.lt_of_not_le hlong
  obtain ⟨fk, fv, hfield⟩ := exists_field_of_ne_empty (hnone hk fields hlookup)
  have hzero := (zeroTail_of_field hfits hall hlookup hfield).1
  obtain ⟨others, hnodup, hmem, -⟩ := exists_entries_first hlookup
  let env := stillClock.arrange fun _ ↦ ((hk, fields) :: others).map Prod.fst
  have hentries : env.entries (i + 1) maps.hashes = (hk, fields) :: others :=
    entries_arrange stillClock hnodup hmem rfl
  have hfound := contents_found hfits hall env
  obtain ⟨body, hbody⟩ : ∃ body, (writeHashes env (i + 2) ((hk, fields) :: others)).flatten =
      block 4 hk ++ (toBytes 4 fields.keys.card ++ body) :=
    ⟨_, flatten_writeHashes_cons env (i + 2) hk fields others⟩
  rw [hashSectionOf_stringsIn hfits hstrings, hentries, hbody] at hfound
  obtain ⟨hlength, hcount⟩ := hfits.hash hk fields hlookup
  have hname (rest : GoString) := readBlock_long_block field_width hlength hlong hzero rest
  -- The number of its fields is read behind zeros.
  rcases readNumber_behind field_width hcount (Nat.sub_pos_of_lt hlong) body with
    ⟨n, rest, hread, hlt⟩ | ⟨hzero, -⟩
  · rw [List.length_cons, hashesOf_succ (hname _) hread] at hfound
    have hle := card_fields_le hfound hnone hmem hnodup
      (Nat.succ_le_succ (length_hashesOf_le _ _)) List.mem_cons_self hlookup
    rw [length_pairsOf] at hle
    exact absurd hle (Nat.not_le.mpr hlt)
  · exact card_fields_ne_zero hnone hlookup hzero

/-- A field that one read does not give is the only field, but for an empty one that is empty. -/
theorem field_of_long {hk fk fv : GoString} {fields : GoMap GoString}
    (hlookup : maps.hashes.lookup hk = some fields) (hfield : fields.lookup fk = some fv)
    (hlong : maxRW < fk.length ∨ maxRW < fv.length) :
    Trailing fk fv ∧ (∀ p, fields.lookup p.1 = some p.2 → p = (fk, fv) ∨ p = ([], [])) ∧
      ∀ name, maps.hashes.lookup name ≠ none → name = hk := by
  obtain ⟨others, hnodup, hmem, hsorted⟩ := exists_entries_first hlookup
  obtain ⟨pairs, hkeys, hpairs, hshorter⟩ := exists_entries_first hfield
  let env := stillClock.arrange fun j ↦
    if j = i + 1 then ((hk, fields) :: others).map Prod.fst else ((fk, fv) :: pairs).map Prod.fst
  have hentries : env.entries (i + 1) maps.hashes = (hk, fields) :: others :=
    entries_arrange stillClock hnodup hmem (if_pos rfl)
  have hinner : env.entries (i + 2) fields = (fk, fv) :: pairs :=
    entries_arrange stillClock hkeys hpairs (if_neg (Nat.succ_ne_self (i + 1)))
  have hcard : fields.keys.card = pairs.length + 1 := by
    rw [← length_entries env (i + 2), hinner, List.length_cons]
  have hfound := contents_found hfits hall env
  obtain ⟨hlength, hcount⟩ := hfits.hash hk fields hlookup
  have hname := length_name_le hfits hnone hall hstrings hlookup
  obtain ⟨found, after, hpairsOf⟩ : ∃ found after, pairsOf 4 (pairs.length + 1)
      (blocks 4 ((fk, fv) :: pairs) ++ (writeHashes env (i + 3) others).flatten) = (found, after) :=
    ⟨_, _, Prod.mk.eta.symm⟩
  have hread : hashesOf (others.length + 1)
      (writeHashes env (i + 2) ((hk, fields) :: others)).flatten =
        (hk, found) :: hashesOf others.length after := by
    refine hashesOf_writeHashes hname hcount ?_
    rw [hinner, hcard]
    exact hpairsOf
  rw [hashSectionOf_stringsIn hfits hstrings, hentries, List.length_cons, hread] at hfound
  have hle : ((hk, found) :: hashesOf others.length after).length ≤
      ((hk, fields) :: others).length := Nat.succ_le_succ (length_hashesOf_le _ _)
  have hsubset : (fk, fv) :: pairs ⊆ found := fun p hp ↦
    fields_subset hfound hnone hmem hnodup hle List.mem_cons_self hlookup
      ((hpairs p.1 p.2).mp hp)
  have hlast : found.length ≤ ((fk, fv) :: pairs).length := by
    rw [List.length_cons, ← @length_pairsOf 4 (pairs.length + 1), hpairsOf]
  have hperm := ((List.subperm_of_subset (List.Nodup.of_map _ hkeys) hsubset).perm_of_length_le
    hlast).symm
  have hcase := @pairs_of_long 4 field_width fk fv pairs (writeHashes env (i + 3) others).flatten
    (fun p hp ↦ hfits.field hk fields hlookup p.1 p.2 ((hpairs p.1 p.2).mp hp))
    (zeroTail_of_field hfits hall hlookup hfield).2 hlong hshorter hkeys
  rw [hpairsOf] at hcase
  obtain ⟨htrailing, hempty, t, ht, rfl⟩ := hcase hperm
  obtain rfl := eq_nil_of_hashes_behind hfits hnone ht hfound rfl hmem hnodup hsorted
  refine ⟨htrailing, fun p hp ↦ ?_, fun name hsome ↦ ?_⟩
  · rcases List.mem_cons.mp ((hpairs p.1 p.2).mpr hp) with heq | hother
    · exact .inl heq
    · exact .inr (hempty p hother)
  · obtain ⟨fields', hfields⟩ := Option.ne_none_iff_exists'.mp hsome
    exact (Prod.mk.inj (List.mem_singleton.mp ((hmem name fields').mpr hfields))).1

end Hashes

end Long

/-! ### Snapshots that are restored -/

/-- The maps hold one string that one read does not give, but all of whose missing bytes are zeros,
and nothing but zeros is ever written behind it: it is in the only entry, or in the only hash, which
has a name that comes with one read and no other field but an empty one that is empty. -/
def LoneLong (maps : MapStore) : Prop :=
  (∃ k v, Trailing k v ∧ maps = MapStore.new.set k v) ∨
  ∃ hk k v fields, Trailing k v ∧ hk.length ≤ maxRW ∧
    (∀ key value, maps.strings.lookup key = some value →
      key.length ≤ maxRW ∧ value.length ≤ maxRW) ∧
    maps.hashes = (∅ : GoMap (GoMap GoString)).insert hk fields ∧ fields.lookup k = some v ∧
    ∀ p : GoString × GoString, fields.lookup p.1 = some p.2 → p = (k, v) ∨ p = ([], [])

section Restored

variable {i : ℕ} {maps : MapStore} (hfits : Fits maps)

include hfits

/-- Maps that are restored whatever the order of the iterations have no long string but a lone one.
-/
theorem fitsReads_or_loneLong (hnone : maps.NoEmptyHash) (hall : ∀ env, Restores env i maps) :
    FitsReads maps ∨ LoneLong maps := by
  by_cases hstrings : ∀ k v, maps.strings.lookup k = some v → k.length ≤ maxRW ∧ v.length ≤ maxRW
  · have hnames {hk : GoString} {fields : GoMap GoString}
        (hlookup : maps.hashes.lookup hk = some fields) : hk.length ≤ maxRW :=
      length_name_le hfits hnone hall hstrings hlookup
    by_cases hfields : ∀ hk fields, maps.hashes.lookup hk = some fields → ∀ k v,
        fields.lookup k = some v → k.length ≤ maxRW ∧ v.length ≤ maxRW
    · refine .inl ⟨hfits.strings, fun k v hlookup ↦ ?_, hfits.hashes, fun hk fields hlookup ↦ ?_,
        fun hk fields hlookup k v hfield ↦ ?_⟩
      · exact (hstrings k v hlookup).imp Nat.lt_succ_of_le Nat.lt_succ_of_le
      · exact ⟨Nat.lt_succ_of_le (hnames hlookup), (hfits.hash hk fields hlookup).2⟩
      · exact (hfields hk fields hlookup k v hfield).imp Nat.lt_succ_of_le Nat.lt_succ_of_le
    · push Not at hfields
      obtain ⟨hk, fields, hlookup, k, v, hfield, hlong⟩ := hfields
      obtain ⟨htrailing, hpairs, honly⟩ := field_of_long hfits hnone hall hstrings hlookup hfield
        ((Nat.lt_or_ge maxRW k.length).imp_right hlong)
      refine .inr (.inr ⟨hk, k, v, fields, htrailing, hnames hlookup, hstrings, ?_, hfield, hpairs⟩)
      refine Finmap.ext_lookup fun name ↦ ?_
      by_cases hname : name = hk
      · rw [hname, hlookup, Finmap.lookup_insert]
      · rw [Finmap.lookup_insert_of_ne _ hname, Finmap.lookup_empty]
        by_contra hsome
        exact hname (honly name hsome)
  · push Not at hstrings
    obtain ⟨k, v, hlookup, hlong⟩ := hstrings
    obtain ⟨htrailing, hmaps⟩ := string_of_long hfits hnone hall hlookup
      ((Nat.lt_or_ge maxRW k.length).imp_right hlong)
    exact .inr (.inl ⟨k, v, htrailing, hmaps⟩)

/-- The only entry is found. -/
theorem commands_snapshot_set {k v : GoString} (htrailing : Trailing k v)
    (hmaps : maps = MapStore.new.set k v) (env : Environment) :
    (replayFile (some (writeSnapshot env i maps).flatten)).commands = saved env i maps := by
  subst hmaps
  obtain ⟨hk, hv⟩ := hfits.string k v (Finmap.lookup_insert _)
  have hstrings : env.entries i (MapStore.new.set k v).strings = [(k, v)] :=
    entries_singleton env i k v
  have hhashes : env.entries (i + 1) (MapStore.new.set k v).hashes = [] := entries_empty env (i + 1)
  have hbytes : hashBytes env i (MapStore.new.set k v) = zeros 4 := by
    rw [hashBytes, hhashes, ← length_entries env (i + 1), hhashes, List.length_nil, toBytes_zero]
    rfl
  obtain ⟨j, hread⟩ := pairsOf_trailing field_width hk hv htrailing 0 4
  have hin : stringsIn env i (MapStore.new.set k v) = ([(k, v)], zeros j) := by
    rw [stringsIn, ← length_entries env i, hstrings, hbytes, blocks_cons]
    exact hread
  have hsection : hashSectionOf (zeros j) = [] := by
    rw [hashSectionOf]
    by_cases hj : j = 0
    · rw [hj]
      rfl
    · rw [readNumber_zeros field_width.2 hj]
      rfl
  rw [commands_snapshot env i hfits.strings, hin, hsection, saved, hstrings, hhashes]
  rfl

/-- The fields of the only hash are found. -/
theorem commands_snapshot_hash {hk k v : GoString} {fields : GoMap GoString}
    (htrailing : Trailing k v) (hname : hk.length ≤ maxRW)
    (hstrings : ∀ key value, maps.strings.lookup key = some value →
      key.length ≤ maxRW ∧ value.length ≤ maxRW)
    (hhashes : maps.hashes = (∅ : GoMap (GoMap GoString)).insert hk fields)
    (hfield : fields.lookup k = some v)
    (hpairs : ∀ p : GoString × GoString, fields.lookup p.1 = some p.2 → p = (k, v) ∨ p = ([], []))
    (env : Environment) :
    (replayFile (some (writeSnapshot env i maps).flatten)).commands = saved env i maps := by
  have hlookup : maps.hashes.lookup hk = some fields := by rw [hhashes, Finmap.lookup_insert]
  have hentries : env.entries (i + 1) maps.hashes = [(hk, fields)] := by
    rw [hhashes]
    exact entries_singleton env (i + 1) hk fields
  obtain ⟨hlength, hvalue⟩ := hfits.field hk fields hlookup k v hfield
  -- The other fields are empty, wherever they are written.
  obtain ⟨before, after, hsplit⟩ :=
    List.append_of_mem ((@mem_entries_iff _ env (i + 2) fields k v).mpr hfield)
  have hnodup := nodup_keys_entries env (i + 2) fields
  rw [hsplit, List.map_append, List.map_cons, List.nodup_middle, List.nodup_cons,
    List.mem_append, not_or] at hnodup
  have hempty {p : GoString × GoString} (hp : p ∈ env.entries (i + 2) fields) (hkey : p.1 ≠ k) :
      p = ([], []) :=
    (hpairs p (mem_entries_iff.mp hp)).resolve_left fun heq ↦ hkey (congrArg Prod.fst heq)
  have hbefore : before = List.replicate before.length ([], []) :=
    List.eq_replicate_of_mem fun p hp ↦ hempty (hsplit ▸ List.mem_append_left _ hp)
      fun heq ↦ hnodup.1.1 (List.mem_map.mpr ⟨p, hp, heq⟩)
  have hafter : after = List.replicate after.length ([], []) :=
    List.eq_replicate_of_mem fun p hp ↦
      hempty (hsplit ▸ List.mem_append_right _ (List.mem_cons_of_mem _ hp))
        fun heq ↦ hnodup.1.2 (List.mem_map.mpr ⟨p, hp, heq⟩)
  obtain ⟨j, hread⟩ :=
    pairsOf_of_trailing field_width hlength hvalue htrailing before.length after.length 0
  rw [← hbefore, ← hafter, ← hsplit, length_entries] at hread
  have hfound : hashesOf 1 (writeHashes env (i + 2) [(hk, fields)]).flatten =
      [(hk, env.entries (i + 2) fields)] :=
    hashesOf_writeHashes hname (hfits.hash hk fields hlookup).2 hread
  rw [commands_snapshot env i hfits.strings, hashSectionOf_stringsIn hfits hstrings, hentries,
    stringsIn_eq hstrings, List.length_singleton, hfound, saved, hentries, savedHashes, savedHashes,
    List.append_nil]
  exact congrArg (_ ++ ·) (List.flatMap_singleton _ _)

/-- A snapshot is restored in every order of the iterations exactly if there is no empty string
under the empty key, and every string comes with one read or a single one that does not is lone.
Assumes: the maps fit, and no hash is empty. -/
theorem restores_iff (hnone : maps.NoEmptyHash) :
    (∀ env, Restores env i maps) ↔
      maps.strings.lookup [] ≠ some [] ∧ (FitsReads maps ∨ LoneLong maps) := by
  constructor
  · intro hall
    exact ⟨lookup_nil_ne hfits hall, fitsReads_or_loneLong hfits hnone hall⟩
  · rintro ⟨hpair, hmaps⟩ env
    have hcommands : (replayFile (some (writeSnapshot env i maps).flatten)).commands =
        saved env i maps := by
      rcases hmaps with hreads | ⟨k, v, htrailing, hmaps⟩ |
        ⟨hk, k, v, fields, htrailing, hname, hstrings, hhashes, hfield, hpairs⟩
      · rw [replayFile_snapshot env i hreads]
      · exact commands_snapshot_set hfits htrailing hmaps env
      · exact commands_snapshot_hash hfits htrailing hname hstrings hhashes hfield hpairs env
    rw [Restores, hcommands]
    exact (contents_saved_iff hnone).mpr hpair

end Restored

/-! ### A snapshot of a history -/

/-- In every order of the iterations, a snapshot after some commands and its replay into empty maps
give what the commands give in empty maps, exactly if the commands do not leave an empty string
under the empty key, and every string that they leave comes with one read or a single one that does
not is lone. Assumes: the numbers of strings, hashes and fields that the commands leave and the
lengths of their texts are below 2^32. -/
theorem rdb_snapshot_iff (disk : RDBDisk) {cmds : List Command} (hfits : Fits (contents cmds)) :
    (∀ env, contents ((cmds.foldl RDB.write (NewRDB disk)).snapshot env).replay.commands =
        contents cmds) ↔
      (contents cmds).strings.lookup [] ≠ some [] ∧
        (FitsReads (contents cmds) ∨ LoneLong (contents cmds)) := by
  rw [← @restores_iff disk.requests _ hfits (noEmptyHash_contents cmds), RDB.maps_writes]
  exact Iff.rfl

/-- A string and a field. -/
theorem rdb_snapshot_iff_set_hset :
    contents (([⟨text "SET", [text "k", []]⟩, ⟨text "HSET", [text "h", [], []]⟩].foldl RDB.write
        (NewRDB ⟨none, 0⟩)).snapshot stillClock).replay.commands =
      contents [⟨text "SET", [text "k", []]⟩, ⟨text "HSET", [text "h", [], []]⟩] :=
  (rdb_snapshot_iff ⟨none, 0⟩ (fits_contents (by decide) (by decide))).mpr
    ⟨by decide, .inl (fits_contents (by decide) (by decide))⟩ stillClock

/-- An empty string under the empty key is not restored, and neither is a string with bytes that one
read does not give and that are not zeros. -/
theorem rdb_snapshot_lost :
    contents (([⟨text "SET", [[], []]⟩].foldl RDB.write
        (NewRDB ⟨none, 0⟩)).snapshot stillClock).replay.commands ≠
      contents [⟨text "SET", [[], []]⟩] ∧
    contents (([⟨text "SET", [text "k", List.replicate (maxRW + 3) 1]⟩].foldl RDB.write
        (NewRDB ⟨none, 0⟩)).snapshot stillClock).replay.commands ≠
      contents [⟨text "SET", [text "k", List.replicate (maxRW + 3) 1]⟩] := by
  have hfound {k v : GoString} (hrestores : Restores stillClock 0 (MapStore.new.set k v)) :
      ZeroTail v ∧ ¬ (k = [] ∧ v = []) := by
    have hcount : (MapStore.new.set k v).strings.keys.card < 2 ^ 32 := (by decide : 1 < 2 ^ 32)
    rw [Restores, commands_snapshot stillClock 0 hcount] at hrestores
    obtain ⟨hmem, hsome⟩ := mem_strings_of_restored hrestores (Finmap.lookup_insert _)
    exact ⟨(zeroTail_pairsOf hmem).2, hsome⟩
  refine ⟨fun hsame ↦ (hfound hsame).2 ⟨rfl, rfl⟩, fun hsame ↦ ?_⟩
  have hzero := (hfound hsame).1
  rw [ZeroTail, List.drop_replicate, List.length_replicate, Nat.add_sub_cancel_left] at hzero
  exact absurd hzero (by decide)

end FluxCache.Persistence
