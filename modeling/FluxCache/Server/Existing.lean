import FluxCache.Server.Handler
import FluxCache.Store.Expiry

/-!
# The keys that exist for `DEL` and `EXPIRE`

The handler of `DEL` asks with `Get` whether a key exists, and `Expire` asks the store inside in the
same way. Both see the strings only. A key that holds a hash and no string is neither deleted nor
counted, and gets no deadline. So the two commands treat every key right that holds something
exactly if such keys are not asked for.

`Deleted` is what the loop of `DEL` does to the store: the strings under the listed keys are gone,
and the hashes under those that had a string.
-/

set_option autoImplicit false
set_option relaxedAutoImplicit false

namespace FluxCache.Server

open Foundation Store Resp Network

section Loop

variable {env : Environment} {t t' t'' : TTLStore MapStore}

theorem requests_delLoop (env : Environment) (t : TTLStore MapStore) (args : List Value) :
    t.requests ≤ (delLoop env args t).2.requests ∧
      (args ≠ [] → t.requests < (delLoop env args t).2.requests) := by
  induction args generalizing t with
  | nil => exact ⟨le_refl _, fun h ↦ absurd rfl h⟩
  | cons arg args ih =>
    have hread : t.requests < (t.get env arg.bulk).2.requests := t.requests_lt_read env _
    suffices hlt : t.requests < (delLoop env (arg :: args) t).2.requests from
      ⟨hlt.le, fun _ ↦ hlt⟩
    unfold delLoop
    split
    · rename_i v t' hget
      rw [hget] at hread
      exact hread.trans_le (ih (t'.del arg.bulk)).1
    · rename_i v t' hnot hget
      rw [hget] at hread
      exact hread.trans_le (ih t').1

/-- Two states of which the second has lost the strings under the listed keys and the hashes under
those that had a string. -/
structure Deleted (listed : List GoString) (t t' : TTLStore MapStore) : Prop where
  strings : ∀ key ∈ listed, key ∉ t'.inner.strings
  hashes : ∀ key ∈ listed, key ∈ t.inner.strings → key ∉ t'.inner.hashes
  stringless : ∀ key ∉ t.inner.strings,
    key ∉ t'.inner.strings ∧ t'.inner.hashes.lookup key = t.inner.hashes.lookup key
  others : ∀ key ∉ listed, t'.inner.strings.lookup key = t.inner.strings.lookup key ∧
    t'.inner.hashes.lookup key = t.inner.hashes.lookup key ∧
    t'.expireAt.lookup key = t.expireAt.lookup key

/-- Deletions one after another. -/
theorem Deleted.cons {key : GoString} {listed : List GoString} (hkey : Deleted [key] t t')
    (hlisted : Deleted listed t' t'') : Deleted (key :: listed) t t'' := by
  have hgone : key ∉ t'.inner.strings := hkey.strings key (List.mem_singleton_self key)
  have hother {k : GoString} (hk : k ≠ key) := hkey.others k fun h ↦ hk (List.mem_singleton.mp h)
  refine ⟨fun k hk ↦ ?_, fun k hk hstring ↦ ?_, fun k hk ↦ ?_, fun k hk ↦ ?_⟩
  · rcases List.mem_cons.mp hk with rfl | hk
    · exact (hlisted.stringless k hgone).1
    · exact hlisted.strings k hk
  · by_cases heq : k = key
    · subst heq
      rw [mem_iff_of_lookup_eq (hlisted.stringless k hgone).2]
      exact hkey.hashes k (List.mem_singleton_self k) hstring
    · exact hlisted.hashes k ((List.mem_cons.mp hk).resolve_left heq)
        ((mem_iff_of_lookup_eq (hother heq).1).mpr hstring)
  · obtain ⟨hstring, hhash⟩ := hkey.stringless k hk
    obtain ⟨hstring', hhash'⟩ := hlisted.stringless k hstring
    exact ⟨hstring', hhash'.trans hhash⟩
  · obtain ⟨hne, hk⟩ := List.ne_and_not_mem_of_not_mem_cons hk
    obtain ⟨hstring, hhash, hdeadline⟩ := hother hne
    obtain ⟨hstring', hhash', hdeadline'⟩ := hlisted.others k hk
    exact ⟨hstring'.trans hstring, hhash'.trans hhash, hdeadline'.trans hdeadline⟩

/-- A key with a string is deleted. -/
theorem deleted_del {key : GoString} (hinner : t'.inner = t.inner)
    (hexpireAt : t'.expireAt = t.expireAt) (hkey : key ∈ t.inner.strings) :
    Deleted [key] t (t'.del key) := by
  have hother {k : GoString} (hk : k ≠ key) :
      (t'.del key).inner.strings.lookup k = t.inner.strings.lookup k ∧
        (t'.del key).inner.hashes.lookup k = t.inner.hashes.lookup k ∧
        (t'.del key).expireAt.lookup k = t.expireAt.lookup k := by
    rw [← hinner, ← hexpireAt]
    exact ⟨Finmap.lookup_erase_ne hk, Finmap.lookup_erase_ne hk, Finmap.lookup_erase_ne hk⟩
  refine ⟨fun k hk hmem ↦ ?_, fun k hk _ hmem ↦ ?_, fun k hk ↦ ?_, fun k hk ↦ ?_⟩
  · exact (Finmap.mem_erase.mp hmem).1 (List.mem_singleton.mp hk)
  · exact (Finmap.mem_erase.mp hmem).1 (List.mem_singleton.mp hk)
  · have hne : k ≠ key := fun h ↦ hk (h ▸ hkey)
    exact ⟨(mem_iff_of_lookup_eq (hother hne).1).not.mpr hk, (hother hne).2.1⟩
  · exact hother fun h ↦ hk (List.mem_singleton.mpr h)

/-- A key without a string is passed over. -/
theorem deleted_of_not_mem {key : GoString} (hinner : t'.inner = t.inner)
    (hexpireAt : t'.expireAt = t.expireAt) (hkey : key ∉ t.inner.strings) :
    Deleted [key] t t' := by
  refine ⟨fun k hk ↦ ?_, fun k hk hstring ↦ ?_, fun k hk ↦ ?_, fun k _ ↦ ?_⟩
  · rwa [hinner, List.mem_singleton.mp hk]
  · rw [List.mem_singleton.mp hk] at hstring
    exact absurd hstring hkey
  · rw [hinner]
    exact ⟨hk, rfl⟩
  · rw [hinner, hexpireAt]
    exact ⟨rfl, rfl, rfl⟩

/-- The loop deletes the listed keys that have a string, and counts every one of them once.
Assumes: no deadline is over when the loop looks at it. -/
theorem delLoop_spec (args : List Value)
    (hahead : ∀ key, ∀ exp ∈ t.expireAt.lookup key, ∀ i < (delLoop env args t).2.requests,
      env.now i ≤ exp) :
    (delLoop env args t).1 = ((args.map (·.bulk)).toFinset ∩ t.inner.strings.keys).card ∧
      Deleted (args.map (·.bulk)) t (delLoop env args t).2 := by
  induction args generalizing t with
  | nil =>
    refine ⟨rfl, fun k hk ↦ absurd hk List.not_mem_nil, fun k hk ↦ absurd hk List.not_mem_nil,
      fun k hk ↦ ⟨hk, rfl⟩, fun k _ ↦ ⟨rfl, rfl, rfl⟩⟩
  | cons arg args ih =>
    have hlt := (requests_delLoop env t (arg :: args)).2 (List.cons_ne_nil _ _)
    have hget : ∃ policy requests, t.get env arg.bulk =
        (.value (commaOk (t.inner.strings.lookup arg.bulk)),
          { t with policy := policy, requests := requests }) :=
      TTLStore.read_of_le fun exp hexp ↦ hahead arg.bulk exp hexp t.requests hlt
    obtain ⟨policy, requests, hget⟩ := hget
    rw [List.map_cons, List.toFinset_cons]
    by_cases hkey : arg.bulk ∈ t.inner.strings
    · let t' : TTLStore MapStore :=
        { t with policy := policy, requests := requests }.del arg.bulk
      obtain ⟨v, hv⟩ := Finmap.mem_iff.mp hkey
      have hloop : delLoop env (arg :: args) t = (delLoop env args t').map (· + 1) id := by
        rw [delLoop, hget, hv]
        rfl
      have hround : Deleted [arg.bulk] t t' := deleted_del rfl rfl hkey
      rw [hloop] at hahead ⊢
      obtain ⟨hcount, hrest⟩ := ih (t := t') fun key exp hexp ↦
        hahead key exp (lookup_of_lookup_erase hexp)
      refine ⟨?_, hround.cons hrest⟩
      show (delLoop env args t').1 + 1 = _
      have hkeys : t'.inner.strings.keys = t.inner.strings.keys.erase arg.bulk :=
        Finmap.keys_erase arg.bulk t.inner.strings
      rw [hcount, hkeys, Finset.inter_erase, ← Finset.erase_insert_eq_erase,
        Finset.card_erase_add_one (Finset.mem_insert_self _ _),
        Finset.insert_inter_of_mem (Finmap.mem_keys.mpr hkey)]
    · let t' : TTLStore MapStore := { t with policy := policy, requests := requests }
      have hloop : delLoop env (arg :: args) t = delLoop env args t' := by
        rw [delLoop, hget, Finmap.lookup_eq_none.mpr hkey]
        rfl
      have hround : Deleted [arg.bulk] t t' := deleted_of_not_mem rfl rfl hkey
      rw [hloop] at hahead ⊢
      obtain ⟨hcount, hrest⟩ := ih (t := t') hahead
      refine ⟨?_, hround.cons hrest⟩
      rw [hcount, Finset.insert_inter_of_notMem fun h ↦ hkey (Finmap.mem_keys.mp h)]

end Loop

section Commands

variable {env : Environment} {t : TTLStore MapStore}

/-- `DEL` acts on every key that exists: the listed keys hold nothing after it, everything under the
other keys is as before, and the reply is the number of the listed keys that held a string or a
hash. -/
structure DeletesExisting (env : Environment) (args : List Value) (t : TTLStore MapStore) :
    Prop where
  gone : ∀ arg ∈ args, arg.bulk ∉ (delHandler env args t).2.inner.keys
  others : ∀ key ∉ args.map (·.bulk),
    (delHandler env args t).2.inner.strings.lookup key = t.inner.strings.lookup key ∧
      (delHandler env args t).2.inner.hashes.lookup key = t.inner.hashes.lookup key ∧
      (delHandler env args t).2.expireAt.lookup key = t.expireAt.lookup key
  reply : (delHandler env args t).1 =
    .ofInteger ((args.map (·.bulk)).toFinset ∩ t.inner.keys).card

theorem mem_keys_iff {s : MapStore} {key : GoString} :
    key ∈ s.keys ↔ key ∈ s.strings ∨ key ∈ s.hashes := by
  rw [MapStore.keys, Finset.mem_union, Finmap.mem_keys, Finmap.mem_keys]

/-- `EXPIRE` finds the keys that hold a string. -/
theorem reply_expire_iff {key sec : Value} {n : ℤ} (hsec : parseInt sec.bulk = .ok n) :
    (expireHandler env [key, sec] t).1 = .ofInteger 1 ↔ key.bulk ∈ t.inner.strings := by
  have hreply : (expireHandler env [key, sec] t).1 =
      .ofInteger (if (t.expire env key.bulk (ofSeconds n)).1 then 1 else 0) := by
    rw [expireHandler, hsec]
    rfl
  have hget : StoreInterface.get t.inner key.bulk = commaOk (t.inner.strings.lookup key.bulk) := rfl
  rw [hreply, TTLStore.expire, hget]
  cases hstring : t.inner.strings.lookup key.bulk with
  | none =>
    refine iff_of_false (fun h ↦ ?_) (Finmap.lookup_eq_none.mp hstring)
    have hnum : (0 : ℤ) = 1 := congrArg Value.num h
    exact absurd hnum (by decide)
  | some v => exact iff_of_true rfl (Finmap.mem_of_lookup_eq_some hstring)

/-- `DEL` and `EXPIRE` act on every key that exists exactly if no key that they are asked for holds
a hash without a string. Assumes: no deadline is over while `DEL` runs. -/
theorem del_expire_existing_iff {args : List Value} (hargs : args ≠ [])
    (hahead : ∀ key, ∀ exp ∈ t.expireAt.lookup key, ∀ i < (delHandler env args t).2.requests,
      env.now i ≤ exp) :
    (DeletesExisting env args t ↔
        ∀ arg ∈ args, arg.bulk ∈ t.inner.hashes → arg.bulk ∈ t.inner.strings) ∧
      ∀ key sec : Value, ∀ n, parseInt sec.bulk = .ok n → 0 < n →
        (((expireHandler env [key, sec] t).1 = .ofInteger 1 ↔ key.bulk ∈ t.inner.keys) ↔
          (key.bulk ∈ t.inner.hashes → key.bulk ∈ t.inner.strings)) := by
  have hhandler : delHandler env args t =
      (delLoop env args t).map (fun count : ℕ ↦ .ofInteger count) id := by
    cases args with
    | nil => exact absurd rfl hargs
    | cons arg args => rfl
  have hfinal : (delHandler env args t).2 = (delLoop env args t).2 := by rw [hhandler]; rfl
  rw [hfinal] at hahead
  obtain ⟨hcount, hdeleted⟩ := delLoop_spec args hahead
  rw [← hfinal] at hdeleted
  refine ⟨⟨fun hexact arg harg hhash ↦ ?_, fun hstrings ↦ ⟨fun arg harg ↦ ?_, hdeleted.others, ?_⟩⟩,
    fun key sec n hsec hn ↦ ?_⟩
  · by_contra hstring
    refine hexact.gone arg harg (mem_keys_iff.mpr (Or.inr ?_))
    exact (mem_iff_of_lookup_eq (hdeleted.stringless arg.bulk hstring).2).mpr hhash
  · rw [mem_keys_iff, not_or]
    refine ⟨hdeleted.strings arg.bulk (List.mem_map_of_mem harg), ?_⟩
    by_cases hstring : arg.bulk ∈ t.inner.strings
    · exact hdeleted.hashes arg.bulk (List.mem_map_of_mem harg) hstring
    · rw [mem_iff_of_lookup_eq (hdeleted.stringless arg.bulk hstring).2]
      exact fun hhash ↦ hstring (hstrings arg harg hhash)
  · have hkeys : (args.map (·.bulk)).toFinset ∩ t.inner.strings.keys =
        (args.map (·.bulk)).toFinset ∩ t.inner.keys := by
      ext key
      rw [Finset.mem_inter, Finset.mem_inter, Finmap.mem_keys, mem_keys_iff, List.mem_toFinset]
      refine and_congr_right fun hmem ↦ ⟨Or.inl, fun h ↦ h.elim id fun hhash ↦ ?_⟩
      obtain ⟨arg, harg, rfl⟩ := List.mem_map.mp hmem
      exact hstrings arg harg hhash
    rw [hhandler, ← hkeys, ← hcount]
    rfl
  · rw [reply_expire_iff hsec, mem_keys_iff]
    tauto

/-- `SET k v`, `HSET k f v` and `HSET h f v` on a new store. -/
def sampleStore : TTLStore MapStore :=
  let t : TTLStore MapStore := .new .new
  let t := (setHandler stillClock [.ofBulk (text "k"), .ofBulk (text "v")] t).2
  let t := (hsetHandler stillClock
    [.ofBulk (text "k"), .ofBulk (text "f"), .ofBulk (text "v")] t).2
  (hsetHandler stillClock [.ofBulk (text "h"), .ofBulk (text "f"), .ofBulk (text "v")] t).2

theorem del_expire_existing_iff_both :
    DeletesExisting stillClock [.ofBulk (text "k"), .ofBulk (text "k")] sampleStore := by
  have hnone : sampleStore.expireAt = ∅ := rfl
  refine (del_expire_existing_iff (List.cons_ne_nil _ _) fun key exp hexp ↦ ?_).1.mpr ?_
  · rw [hnone, Finmap.lookup_empty] at hexp
    exact absurd hexp (Option.not_mem_none exp)
  · intro arg harg _
    have hbulk : arg.bulk = text "k" := by
      simp only [List.mem_cons, List.not_mem_nil, or_false, or_self] at harg
      rw [harg]
      rfl
    rw [hbulk]
    decide

/-- A key that holds a hash only survives `DEL`, is not counted and gets no deadline. -/
theorem hash_not_existing :
    text "h" ∈ sampleStore.inner.keys ∧
      (delHandler stillClock [.ofBulk (text "h")] sampleStore).1 = .ofInteger 0 ∧
      (delHandler stillClock [.ofBulk (text "h")] sampleStore).2.inner.hashes.lookup (text "h") =
        some (Finmap.singleton (text "f") (text "v")) ∧
      (expireHandler stillClock [.ofBulk (text "h"), .ofBulk (text "10")] sampleStore).1 =
        .ofInteger 0 := by
  exact ⟨by decide, rfl, rfl, rfl⟩

end Commands

end FluxCache.Server
