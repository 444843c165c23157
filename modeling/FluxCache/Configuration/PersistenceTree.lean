import FluxCache.Configuration.Build

/-!
# The persistence of a configuration, level by level

The section for the persistence is a tree: a section of the type `dual` has two sections below it,
and the others are leaves. `Validate` checks the type of the root only. `buildPersistence` goes
through the tree and builds a backend without any persistence where it does not know the type
(`buildPersistence_cases`). So what is built is what the leaves name exactly if the types of the
leaves are known (`honours_iff`).
-/

set_option autoImplicit false
set_option relaxedAutoImplicit false

namespace FluxCache.Configuration

open Foundation Persistence

/-- The types of leaves. -/
def leafTypes : List GoString := [text "null", text "aof", text "wal", text "rdb"]

/-- A section of a configuration tree that is not divided further. -/
inductive IsLeaf (leaf : PersistenceConfig) : PersistenceConfig → Prop
  | self (htype : leaf.type ≠ text "dual") : IsLeaf leaf leaf
  | primary {cfg sub : PersistenceConfig} (htype : cfg.type = text "dual")
    (hsub : cfg.primary = some sub) : IsLeaf leaf sub → IsLeaf leaf cfg
  | secondary {cfg sub : PersistenceConfig} (htype : cfg.type = text "dual")
    (hsub : cfg.secondary = some sub) : IsLeaf leaf sub → IsLeaf leaf cfg

/-- A backend has at every leaf of a configuration tree what the type of the leaf names. -/
inductive Honours : PersistenceConfig → PersistenceBackend → Prop
  | null {cfg : PersistenceConfig} (htype : cfg.type = text "null") : Honours cfg .null
  | aof {cfg : PersistenceConfig} {a : AOF} (htype : cfg.type = text "aof") : Honours cfg (.aof a)
  | wal {cfg : PersistenceConfig} {w : WAL} (htype : cfg.type = text "wal") : Honours cfg (.wal w)
  | rdb {cfg : PersistenceConfig} {path : GoString} {interval : Duration}
    (htype : cfg.type = text "rdb") : Honours cfg (.rdb path interval)
  | dual {cfg primary secondary : PersistenceConfig} {p s : PersistenceBackend}
    (htype : cfg.type = text "dual") (hprimary : cfg.primary = some primary)
    (hsecondary : cfg.secondary = some secondary) :
    Honours primary p → Honours secondary s → Honours cfg (.dual p s)

section Leaves

variable {cfg : PersistenceConfig} {P : PersistenceConfig → Prop}

theorem forall_leaf_of_ne (htype : cfg.type ≠ text "dual") :
    (∀ leaf, IsLeaf leaf cfg → P leaf) ↔ P cfg := by
  constructor
  · exact fun h ↦ h cfg (.self htype)
  · intro h leaf hleaf
    cases hleaf with
    | self _ => exact h
    | primary hdual _ _ => exact absurd hdual htype
    | secondary hdual _ _ => exact absurd hdual htype

theorem forall_leaf_of_dual {primary secondary : PersistenceConfig}
    (htype : cfg.type = text "dual") (hprimary : cfg.primary = some primary)
    (hsecondary : cfg.secondary = some secondary) :
    (∀ leaf, IsLeaf leaf cfg → P leaf) ↔
      (∀ leaf, IsLeaf leaf primary → P leaf) ∧ ∀ leaf, IsLeaf leaf secondary → P leaf := by
  constructor
  · intro h
    exact ⟨fun leaf hleaf ↦ h leaf (.primary htype hprimary hleaf),
      fun leaf hleaf ↦ h leaf (.secondary htype hsecondary hleaf)⟩
  · rintro ⟨hfirst, hsecond⟩ leaf hleaf
    cases hleaf with
    | self hne => exact absurd htype hne
    | primary _ hsub hleaf =>
      rw [Option.some.inj (hsub.symm.trans hprimary)] at hleaf
      exact hfirst leaf hleaf
    | secondary _ hsub hleaf =>
      rw [Option.some.inj (hsub.symm.trans hsecondary)] at hleaf
      exact hsecond leaf hleaf

end Leaves

section Build

variable {quote : GoString → GoString} {parseDuration : GoString → Except GoString Duration}
  {files : Files} {cfg : PersistenceConfig} {b : PersistenceBackend}

/-- What can be built of a section. -/
theorem buildPersistence_cases (hbuild : buildPersistence quote parseDuration files cfg = .ok b) :
    (cfg.type = text "aof" ∧ ∃ a, b = .aof a) ∨ (cfg.type = text "wal" ∧ ∃ w, b = .wal w) ∨
      (cfg.type = text "rdb" ∧ ∃ path interval, b = .rdb path interval) ∨
      (cfg.type = text "dual" ∧ ∃ primary secondary p s, cfg.primary = some primary ∧
        cfg.secondary = some secondary ∧
        buildPersistence quote parseDuration files primary = .ok p ∧
        buildPersistence quote parseDuration files secondary = .ok s ∧ b = .dual p s) ∨
      (cfg.type ∉ [text "aof", text "wal", text "rdb", text "dual"] ∧ b = .null) := by
  obtain ⟨type, file, interval, primary, secondary⟩ := cfg
  unfold buildPersistence at hbuild
  by_cases haof : type = text "aof"
  · rw [if_pos haof] at hbuild
    obtain ⟨bytes, -, rfl⟩ := map_eq_ok_iff.mp hbuild
    exact Or.inl ⟨haof, _, rfl⟩
  rw [if_neg haof] at hbuild
  by_cases hwal : type = text "wal"
  · rw [if_pos hwal] at hbuild
    obtain ⟨bytes, -, rfl⟩ := map_eq_ok_iff.mp hbuild
    exact Or.inr (Or.inl ⟨hwal, _, rfl⟩)
  rw [if_neg hwal] at hbuild
  by_cases hrdb : type = text "rdb"
  · rw [if_pos hrdb] at hbuild
    refine Or.inr (Or.inr (Or.inl ⟨hrdb, ?_⟩))
    split at hbuild
    · exact ⟨_, _, (Except.ok.inj hbuild).symm⟩
    · split at hbuild
      · exact ⟨_, _, (Except.ok.inj hbuild).symm⟩
      · cases hbuild
  rw [if_neg hrdb] at hbuild
  by_cases hdual : type = text "dual"
  · rw [if_pos hdual] at hbuild
    refine Or.inr (Or.inr (Or.inr (Or.inl ⟨hdual, ?_⟩)))
    cases primary with
    | none => cases hbuild
    | some primary =>
      cases secondary with
      | none => cases hbuild
      | some secondary =>
        obtain ⟨p, hp, hbuild⟩ := bind_eq_ok_iff.mp hbuild
        obtain ⟨s, hs, hbuild⟩ := bind_eq_ok_iff.mp hbuild
        exact ⟨primary, secondary, p, s, rfl, rfl, mapError_eq_ok_iff.mp hp,
          mapError_eq_ok_iff.mp hs, (Except.ok.inj hbuild).symm⟩
  rw [if_neg hdual] at hbuild
  refine Or.inr (Or.inr (Or.inr (Or.inr ⟨?_, (Except.ok.inj hbuild).symm⟩)))
  simp [haof, hwal, hrdb, hdual]

/-- What is built is what the leaves name exactly if their types are known. -/
theorem honours_iff {cfg : PersistenceConfig} {b : PersistenceBackend}
    (hbuild : buildPersistence quote parseDuration files cfg = .ok b) :
    Honours cfg b ↔ ∀ leaf, IsLeaf leaf cfg → leaf.type ∈ leafTypes := by
  obtain ⟨htype, a, rfl⟩ | ⟨htype, w, rfl⟩ | ⟨htype, path, interval, rfl⟩ |
    ⟨htype, primary, secondary, p, s, hprimary, hsecondary, hp, hs, rfl⟩ | ⟨htype, rfl⟩ :=
    buildPersistence_cases hbuild
  · rw [forall_leaf_of_ne (htype ▸ by decide), htype]
    exact iff_of_true (.aof htype) (by decide)
  · rw [forall_leaf_of_ne (htype ▸ by decide), htype]
    exact iff_of_true (.wal htype) (by decide)
  · rw [forall_leaf_of_ne (htype ▸ by decide), htype]
    exact iff_of_true (.rdb htype) (by decide)
  · have ihp := honours_iff hp
    have ihs := honours_iff hs
    rw [forall_leaf_of_dual htype hprimary hsecondary, ← ihp, ← ihs]
    constructor
    · rintro (- | - | - | - | ⟨-, hprimary', hsecondary', hp', hs'⟩)
      rw [Option.some.inj (hprimary'.symm.trans hprimary)] at hp'
      rw [Option.some.inj (hsecondary'.symm.trans hsecondary)] at hs'
      exact ⟨hp', hs'⟩
    · rintro ⟨hp', hs'⟩
      exact .dual htype hprimary hsecondary hp' hs'
  · -- The fallback: a leaf of the type `null` or of a type that is not known.
    simp only [List.mem_cons, List.not_mem_nil, or_false, not_or] at htype
    obtain ⟨haof, hwal, hrdb, hdual⟩ := htype
    rw [forall_leaf_of_ne hdual]
    constructor
    · rintro ⟨hnull⟩
      simp [leafTypes, hnull]
    · intro hknown
      simp only [leafTypes, List.mem_cons, haof, hwal, hrdb, List.not_mem_nil, or_false] at hknown
      exact .null hknown
termination_by sizeOf b

end Build

/-- The root of a configuration that is accepted has a known type. -/
theorem persistence_of_validate {quote : GoString → GoString} {c : Config}
    (hvalid : validate quote c = .ok ()) : c.persistence.type ∈ validPersistence := by
  have hcheck := validate_eq_ok_iff.mp hvalid
    (nameCheck quote "persistence" validPersistence c.persistence.type) (by simp [checks])
  exact Decidable.not_not.mp (failure_eq_none_iff.mp hcheck)

/-- If a configuration is accepted and its persistence is built, then what is built has at every
leaf what the leaf names exactly if every leaf has a known type. A leaf at the root has one. -/
theorem persistence_honoured_iff {quote : GoString → GoString}
    {parseDuration : GoString → Except GoString Duration} {files : Files} {c : Config}
    {b : PersistenceBackend} (hvalid : validate quote c = .ok ())
    (hbuild : buildPersistence quote parseDuration files c.persistence = .ok b) :
    (Honours c.persistence b ↔ ∀ leaf, IsLeaf leaf c.persistence → leaf.type ∈ leafTypes) ∧
      (c.persistence.type ≠ text "dual" → c.persistence.type ∈ leafTypes) := by
  refine ⟨honours_iff hbuild, fun hne ↦ ?_⟩
  have hknown := persistence_of_validate hvalid
  simp only [validPersistence, List.mem_cons, List.not_mem_nil, or_false, hne] at hknown
  simpa only [leafTypes, List.mem_cons, List.not_mem_nil, or_false] using hknown

/-- The configuration of two levels of dual persistence over three leaves; the first leaf has the
given type. -/
def nestedDual (type : GoString) : Config :=
  { Config.default with
    persistence :=
      { type := text "dual"
        primary := some
          { type := text "dual"
            primary := some { type := type, file := text "a" }
            secondary := some { type := text "wal", file := text "b" } }
        secondary := some { type := text "null" } } }

theorem persistence_honoured_iff_nested :
    Honours (nestedDual (text "aof")).persistence
      (.dual (.dual (.aof (NewAOF [])) (.wal (NewWAL []))) .null) := by
  have hvalid : validate id (nestedDual (text "aof")) = .ok () := rfl
  have hbuild : buildPersistence id (fun _ ↦ .ok 0) (fun _ ↦ .ok [])
      (nestedDual (text "aof")).persistence =
      .ok (.dual (.dual (.aof (NewAOF [])) (.wal (NewWAL []))) .null) := rfl
  refine (persistence_honoured_iff hvalid hbuild).1.mpr ?_
  rw [forall_leaf_of_dual rfl rfl rfl, forall_leaf_of_dual rfl rfl rfl,
    forall_leaf_of_ne (by decide), forall_leaf_of_ne (by decide), forall_leaf_of_ne (by decide)]
  decide

/-- A misspelt type below the root is accepted, and the leaf is built without any persistence. -/
theorem persistence_not_honoured :
    validate id (nestedDual (text "aoff")) = .ok () ∧
      buildPersistence id (fun _ ↦ .ok 0) (fun _ ↦ .ok []) (nestedDual (text "aoff")).persistence =
        .ok (.dual (.dual .null (.wal (NewWAL []))) .null) ∧
      ¬ Honours (nestedDual (text "aoff")).persistence
        (.dual (.dual .null (.wal (NewWAL []))) .null) := by
  have hbuild : buildPersistence id (fun _ ↦ .ok 0) (fun _ ↦ .ok [])
      (nestedDual (text "aoff")).persistence =
      .ok (.dual (.dual .null (.wal (NewWAL []))) .null) := rfl
  refine ⟨rfl, hbuild, ?_⟩
  rw [honours_iff hbuild, forall_leaf_of_dual rfl rfl rfl, forall_leaf_of_dual rfl rfl rfl,
    forall_leaf_of_ne (by decide)]
  intro h
  exact absurd h.1.1 (by decide)

end FluxCache.Configuration
