import FluxCache.Store.SyncMapLedger

/-!
# The hashes of the store on concurrent maps are linearizable

A thread that acts on a map of a hash has loaded it after its call was entered, so the hash has the
map or lost it after that time (`Running`). Every step of a thread keeps the ledger of a hash
(`Running.advance`), and the ledger puts the calls that have returned in one order.
-/

set_option autoImplicit false
set_option relaxedAutoImplicit false

namespace FluxCache.Store.SyncMapStore

open FluxCache.Foundation LockFree

/-! ### The threads -/

/-- The request that a phase belongs to. -/
def Phase.Serves : Phase → Request → Prop
  | .finished _, _ => False
  | .storeString key value, r => r = .update (.write (.set key value))
  | .deleteString key, r => r = .update (.del key)
  | .deleteHash key, r => r = .update (.del key)
  | .loadString key, r => r = .read (.get key)
  | .loadOrStore hash key value, r => r = .update (.write (.hset hash key value))
  | .storeField hash key value _, r => r = .update (.write (.hset hash key value))
  | .loadHash hash key, r => r = .read (.hget hash key)
  | .loadField hash key _, r => r = .read (.hget hash key)
  | .loadAll hash, r => r = .read (.hgetAll hash)
  | .startRange _, r => ∃ hash, r = .read (.hgetAll hash)
  | .range _ _ _, r => ∃ hash, r = .read (.hgetAll hash)

/-- The hash and the map on which a thread is about to act. -/
def Phase.holds : Phase → Option (GoString × Pointer)
  | .storeField hash _ _ inner => some (hash, inner)
  | .loadField hash _ inner => some (hash, inner)
  | _ => none

theorem Phase.serves_enter (request : Request) : (Phase.enter request).Serves request := by
  match request with
  | .update (.write (.set _ _)) => rfl
  | .update (.write (.hset _ _ _)) => rfl
  | .update (.del _) => rfl
  | .read (.get _) => rfl
  | .read (.hget _ _) => rfl
  | .read (.hgetAll _) => rfl

theorem Phase.holds_enter (request : Request) : (Phase.enter request).holds = none := by
  match request with
  | .update (.write (.set _ _)) => rfl
  | .update (.write (.hset _ _ _)) => rfl
  | .update (.del _) => rfl
  | .read (.get _) => rfl
  | .read (.hget _ _) => rfl
  | .read (.hgetAll _) => rfl

/-- What is known of a thread that is busy with a call: if it acts on a map, then this is a map that
its hash has or has had since the call was entered. -/
structure Running (h : GoString) (s : SyncMapStore) (owner : Pointer → GoString) (g : Ledger)
    (request : Request) (entered : ℕ) (phase : Phase) : Prop where
  serves : phase.Serves request
  lt_used : ∀ hash p, phase.holds = some (hash, p) → p < s.maps.used
  owner_eq : ∀ hash p, phase.holds = some (hash, p) → owner p = hash
  held : ∀ p, phase.holds = some (h, p) → g.Held p entered

section Running

variable {h : GoString} {s s' : SyncMapStore} {owner owner' : Pointer → GoString} {g g' : Ledger}
  {request : Request} {entered : ℕ} {phase : Phase}

theorem running_of_holds_none (hserves : phase.Serves request) (hnone : phase.holds = none) :
    Running h s owner g request entered phase :=
  ⟨hserves, fun hash p hp ↦ absurd (hnone.symm.trans hp) (by simp),
    fun hash p hp ↦ absurd (hnone.symm.trans hp) (by simp),
    fun p hp ↦ absurd (hnone.symm.trans hp) (by simp)⟩

/-- What a step leaves to the other threads: maps keep their owners, and who has a map of the hash
still has it. -/
structure Leaves (time : ℕ) (s : SyncMapStore) (owner : Pointer → GoString) (g : Ledger)
    (s' : SyncMapStore) (owner' : Pointer → GoString) (g' : Ledger) : Prop where
  used : s.maps.used ≤ s'.maps.used
  owner_eq : ∀ q < s.maps.used, owner' q = owner q
  held : ∀ p entered, entered ≤ time → g.Held p entered → g'.Held p entered

theorem leaves_refl (time : ℕ) (s : SyncMapStore) (owner : Pointer → GoString) (g : Ledger) :
    Leaves time s owner g s owner g :=
  ⟨le_rfl, fun _ _ ↦ rfl, fun _ _ _ hheld ↦ hheld⟩

theorem Running.leaves {time : ℕ} (hphase : Running h s owner g request entered phase)
    (hleaves : Leaves time s owner g s' owner' g') (hentered : entered ≤ time) :
    Running h s' owner' g' request entered phase := by
  refine ⟨hphase.serves, fun hash p hp ↦ (hphase.lt_used hash p hp).trans_le hleaves.used,
    fun hash p hp ↦ ?_, fun p hp ↦ hleaves.held p entered hentered (hphase.held p hp)⟩
  rw [hleaves.owner_eq p (hphase.lt_used hash p hp)]
  exact hphase.owner_eq hash p hp

end Running

/-! ### One step -/

/-- What a step of a thread leads to: the ledger with the call if it has returned, and the thread on
its way if it has not. -/
structure Stepped (h : GoString) (time : ℕ) (s : SyncMapStore) (owner : Pointer → GoString)
    (calls : List (Completed Request Reply)) (g : Ledger) (request : Request) (entered : ℕ)
    (result : SyncMapStore × Phase) (owner' : Pointer → GoString) (g' : Ledger) : Prop where
  owned : Owned result.1 owner'
  leaves : Leaves time s owner g result.1 owner' g'
  returned : ∀ reply, result.2 = .finished reply →
    Kept h result.1 owner' (calls ++ [⟨request, reply, entered, time⟩]) g'
  goesOn : result.2.reply = none →
    Kept h result.1 owner' calls g' ∧ Running h result.1 owner' g' request entered result.2

section Step

variable {h : GoString} {time : ℕ} {s : SyncMapStore} {owner : Pointer → GoString}
  {calls : List (Completed Request Reply)} {g : Ledger} {request : Request} {entered : ℕ}

/-- A step that returns. -/
theorem stepped_of_finished {s' : SyncMapStore} {owner' : Pointer → GoString} {g' : Ledger}
    {reply : Reply} (howned : Owned s' owner') (hleaves : Leaves time s owner g s' owner' g')
    (hkept : Kept h s' owner' (calls ++ [⟨request, reply, entered, time⟩]) g') :
    Stepped h time s owner calls g request entered (s', .finished reply) owner' g' where
  owned := howned
  leaves := hleaves
  returned := fun other hother ↦ by
    rw [← Phase.finished.inj hother]
    exact hkept
  goesOn := fun hnone ↦ absurd hnone (by simp [Phase.reply])

/-- A step that goes on. -/
theorem stepped_of_running {s' : SyncMapStore} {owner' : Pointer → GoString} {g' : Ledger}
    {phase : Phase} (howned : Owned s' owner') (hleaves : Leaves time s owner g s' owner' g')
    (hkept : Kept h s' owner' calls g') (hphase : Running h s' owner' g' request entered phase) :
    Stepped h time s owner calls g request entered (s', phase) owner' g' where
  owned := howned
  leaves := hleaves
  returned := fun reply hreply ↦ by
    have hserves := hphase.serves
    rw [show phase = .finished reply from hreply] at hserves
    exact absurd hserves id
  goesOn := fun _ ↦ ⟨hkept, hphase⟩

/-- The strings change, and nothing else. -/
theorem Kept.strings (hg : Kept h s owner calls g) (strings : GoMap GoString) :
    Kept h { s with strings := strings } owner calls g :=
  ⟨hg.linear, fun e he ↦ ⟨(hg.closed e he).lt_used, (hg.closed e he).owner_eq,
    (hg.closed e he).gap, (hg.closed e he).calls, (hg.closed e he).closing⟩, hg.gap, hg.current,
    hg.calls, hg.nodup, hg.later, hg.last⟩

/-- `hashes.Delete`. -/
theorem stepped_deleteHash (howned : Owned s owner) (hg : Kept h s owner calls g)
    (hnow : ∀ a ∈ calls, a.entered ≤ time ∧ a.returned ≤ time) (key : GoString) :
    ∃ owner' g', Stepped h time s owner calls g (.update (.del key)) entered
      ({ s with hashes := s.hashes.erase key }, .finished .nothing) owner' g' := by
  have howned' : Owned { s with hashes := s.hashes.erase key } owner :=
    fun hash p hp ↦ howned hash p (lookup_of_lookup_erase hp)
  by_cases hkey : key = h
  · subst hkey
    have hnone : (s.hashes.erase key).lookup key = none := Finmap.lookup_erase key s.hashes
    cases hcurrent : g.current with
    | none =>
      have hsame : (s.hashes.erase key).lookup key = s.hashes.lookup key := by
        rw [hnone, hg.current, hcurrent]
        rfl
      have hg' : Kept key { s with hashes := s.hashes.erase key } owner calls g :=
        hg.frame howned hsame le_rfl fun _ _ _ ↦ ⟨rfl, rfl⟩
      exact ⟨owner, _, stepped_of_finished howned'
        ⟨le_rfl, fun _ _ ↦ rfl, fun _ _ _ hheld ↦ hheld.addGap⟩
        (hg'.addGap (c := ⟨.update (.del key), .nothing, entered, time⟩) (decide_eq_true rfl) hnone
          rfl hnow)⟩
    | some now =>
      obtain ⟨p, cs⟩ := now
      exact ⟨owner, _, stepped_of_finished howned'
        ⟨le_rfl, fun _ _ ↦ rfl, fun _ _ hentered hheld ↦ hheld.close hcurrent hentered⟩
        (hg.close howned hcurrent hnone rfl rfl rfl hnow)⟩
  · have hsame : (s.hashes.erase key).lookup h = s.hashes.lookup h :=
      Finmap.lookup_erase_ne (Ne.symm hkey)
    have hg' : Kept h { s with hashes := s.hashes.erase key } owner calls g :=
      hg.frame howned hsame le_rfl fun _ _ _ ↦ ⟨rfl, rfl⟩
    exact ⟨owner, g, stepped_of_finished howned' ⟨le_rfl, fun _ _ ↦ rfl, fun _ _ _ hheld ↦ hheld⟩
      (hg'.skip (decide_eq_false hkey))⟩

/-- `hashes.LoadOrStore`. -/
theorem stepped_loadOrStore (howned : Owned s owner) (hg : Kept h s owner calls g)
    (hash key value : GoString) :
    ∃ owner' g', Stepped h time s owner calls g (.update (.write (.hset hash key value))) entered
      ((s.loadOrStore hash).2, .storeField hash key value (s.loadOrStore hash).1) owner' g' := by
  have hloaded := howned.loadOrStore hash
  obtain ⟨hlt, howner⟩ := hloaded.owned hash _ hloaded.lookup_self
  have hrunning {g' : Ledger} (hheld : hash = h → g'.Held (s.loadOrStore hash).1 entered) :
      Running h (s.loadOrStore hash).2 (Function.update owner s.maps.used hash) g'
        (.update (.write (.hset hash key value))) entered
        (.storeField hash key value (s.loadOrStore hash).1) := by
    refine ⟨rfl, fun hash' p hp ↦ ?_, fun hash' p hp ↦ ?_, fun p hp ↦ ?_⟩
    · rw [← (Prod.mk.inj (Option.some.inj hp)).2]
      exact hlt
    · rw [← (Prod.mk.inj (Option.some.inj hp)).2, ← (Prod.mk.inj (Option.some.inj hp)).1]
      exact howner
    · rw [← (Prod.mk.inj (Option.some.inj hp)).2]
      exact hheld (Prod.mk.inj (Option.some.inj hp)).1
  have hframe (hlookup : (s.loadOrStore hash).2.hashes.lookup h = s.hashes.lookup h) :
      Kept h (s.loadOrStore hash).2 (Function.update owner s.maps.used hash) calls g :=
    hg.frame howned hlookup hloaded.used fun q hq _ ↦ hloaded.cell q hq
  have hold : ∀ q < s.maps.used, Function.update owner s.maps.used hash q = owner q :=
    fun q hq ↦ (hloaded.cell q hq).2
  by_cases hhash : hash = h
  · subst hhash
    cases hlookup : s.hashes.lookup hash with
    | none =>
      -- the hash gets the new map
      obtain ⟨hp, hempty⟩ := hloaded.fresh hlookup
      have hcurrent : g.current = none :=
        Option.map_eq_none_iff.mp (hg.current.symm.trans hlookup)
      have hfresh : (s.loadOrStore hash).1 ∉ g.tables := by
        intro hmem
        rw [Ledger.tables, hcurrent, Option.toList_none, List.map_nil, List.append_nil] at hmem
        obtain ⟨e, he, htable⟩ := List.mem_map.mp hmem
        exact absurd (hg.closed e he).lt_used (by rw [htable, hp]; exact lt_irrefl _)
      refine ⟨_, g.attach (s.loadOrStore hash).1, stepped_of_running hloaded.owned
        ⟨hloaded.used, hold, fun _ _ _ hheld ↦ hheld.attach hcurrent⟩
        (hg.attach hlookup hloaded.lookup_self hfresh hempty fun e he ↦ ?_)
        (hrunning fun _ ↦ Or.inl ⟨[], rfl⟩)⟩
      obtain ⟨hltTable, hownerTable, hgap, hcalls, hclosing⟩ := hg.closed e he
      obtain ⟨hcell, hownerSame⟩ := hloaded.cell e.table hltTable
      exact ⟨hltTable.trans_le hloaded.used, hownerSame.trans hownerTable, hgap, hcell ▸ hcalls,
        hclosing⟩
    | some q =>
      have hsame : (s.loadOrStore hash).2.hashes.lookup hash = s.hashes.lookup hash := by
        rw [hloaded.lookup_self, hloaded.found q hlookup, hlookup]
      have hcurrent := hg.current
      rw [hlookup, ← hloaded.found q hlookup] at hcurrent
      obtain ⟨now, hnow, hfst⟩ := Option.map_eq_some_iff.mp hcurrent.symm
      refine ⟨_, g, stepped_of_running hloaded.owned
        ⟨hloaded.used, hold, fun _ _ _ hheld ↦ hheld⟩ (hframe hsame) (hrunning fun _ ↦ Or.inl ?_)⟩
      exact ⟨now.2, by rw [hnow, ← hfst]⟩
  · exact ⟨_, g, stepped_of_running hloaded.owned
      ⟨hloaded.used, hold, fun _ _ _ hheld ↦ hheld⟩
      (hframe (hloaded.lookup_of_ne h (Ne.symm hhash))) (hrunning fun heq ↦ absurd heq hhash)⟩

/-- A call of `Store` or `Load` on the map of a hash, with what it leaves there. -/
theorem stepped_onMap (howned : Owned s owner) (hg : Kept h s owner calls g)
    (hnow : ∀ a ∈ calls, a.entered ≤ time ∧ a.returned ≤ time) {hash : GoString} {p : Pointer}
    {phase : Phase} (hphase : Running h s owner g request entered phase)
    (hholds : phase.holds = some (hash, p)) (hconcerns : concerns h request = decide (hash = h))
    (fields : GoMap GoString) {reply : Reply}
    (hstep : MapStore.serve (holding hash (s.maps.cell p)) request =
      (reply, holding hash fields)) :
    ∃ owner' g', Stepped h time s owner calls g request entered
      ({ s with maps := s.maps.write p fields }, .finished reply) owner' g' := by
  by_cases hhash : hash = h
  · subst hhash
    refine ⟨owner, g.record p ⟨request, reply, entered, time⟩, stepped_of_finished howned
      ⟨le_rfl, fun _ _ ↦ rfl, fun _ _ _ hheld ↦ hheld.record⟩
      (hg.record ?_ (hphase.held p hholds) rfl rfl (fun q hq ↦ Memory.cell_write_of_ne _ _ hq) ?_
        hnow)⟩
    · rw [hconcerns]
      exact decide_eq_true rfl
    · rw [Memory.cell_write_self]
      exact hstep
  · have hcell : ∀ q < s.maps.used, owner q = h →
        (s.maps.write p fields).cell q = s.maps.cell q ∧ owner q = owner q := by
      intro q _ hq
      refine ⟨Memory.cell_write_of_ne _ _ ?_, rfl⟩
      rintro rfl
      exact hhash ((hphase.owner_eq hash q hholds).symm.trans hq)
    have hg' : Kept h { s with maps := s.maps.write p fields } owner calls g :=
      hg.frame howned rfl le_rfl hcell
    refine ⟨owner, g, stepped_of_finished howned
      ⟨le_rfl, fun _ _ ↦ rfl, fun _ _ _ hheld ↦ hheld⟩ (hg'.skip ?_)⟩
    show concerns h request = false
    rw [hconcerns]
    exact decide_eq_false hhash

/-- `hashes.Load` of an `HGet`. -/
theorem stepped_loadHash (order : RangeOrder) (howned : Owned s owner) (hg : Kept h s owner calls g)
    (hnow : ∀ a ∈ calls, a.entered ≤ time ∧ a.returned ≤ time) (hash key : GoString) :
    ∃ owner' g', Stepped h time s owner calls g (.read (.hget hash key)) entered
      (advance order s (.loadHash hash key)) owner' g' := by
  rw [advance]
  cases hlookup : s.hashes.lookup hash with
  | none =>
    by_cases hhash : hash = h
    · subst hhash
      exact ⟨owner, _, stepped_of_finished howned
        ⟨le_rfl, fun _ _ ↦ rfl, fun _ _ _ hheld ↦ hheld.addGap⟩
        (hg.addGap (c := ⟨.read (.hget hash key), .value ([], false), entered, time⟩)
          (decide_eq_true rfl) hlookup rfl hnow)⟩
    · exact ⟨owner, g, stepped_of_finished howned (leaves_refl ..)
        (hg.skip (decide_eq_false hhash))⟩
  | some inner =>
    obtain ⟨hlt, howner⟩ := howned hash inner hlookup
    refine ⟨owner, g, stepped_of_running howned (leaves_refl ..) hg
      ⟨rfl, fun hash' p hp ↦ ?_, fun hash' p hp ↦ ?_, fun p hp ↦ ?_⟩⟩
    · rw [← (Prod.mk.inj (Option.some.inj hp)).2]
      exact hlt
    · rw [← (Prod.mk.inj (Option.some.inj hp)).2, ← (Prod.mk.inj (Option.some.inj hp)).1]
      exact howner
    · obtain ⟨rfl, rfl⟩ := Prod.mk.inj (Option.some.inj hp)
      have hcurrent := hg.current
      rw [hlookup] at hcurrent
      obtain ⟨now, hnow, hfst⟩ := Option.map_eq_some_iff.mp hcurrent.symm
      exact Or.inl ⟨now.2, by rw [hnow, ← hfst]⟩

/-- Every step of a thread keeps the ledger. -/
theorem Running.advance (order : RangeOrder) (howned : Owned s owner) (hg : Kept h s owner calls g)
    (hnow : ∀ a ∈ calls, a.entered ≤ time ∧ a.returned ≤ time) {phase : Phase}
    (hphase : Running h s owner g request entered phase) :
    ∃ owner' g', Stepped h time s owner calls g request entered (advance order s phase)
      owner' g' := by
  have hserves := hphase.serves
  cases phase with
  | finished reply => exact absurd hserves id
  | storeString key value =>
    obtain rfl : request = _ := hserves
    exact ⟨owner, g, stepped_of_finished howned ⟨le_rfl, fun _ _ ↦ rfl, fun _ _ _ hheld ↦ hheld⟩
      ((hg.strings _).skip rfl)⟩
  | deleteString key =>
    obtain rfl : request = _ := hserves
    exact ⟨owner, g, stepped_of_running howned ⟨le_rfl, fun _ _ ↦ rfl, fun _ _ _ hheld ↦ hheld⟩
      (hg.strings _) (running_of_holds_none rfl rfl)⟩
  | deleteHash key =>
    obtain rfl : request = _ := hserves
    exact stepped_deleteHash howned hg hnow key
  | loadString key =>
    obtain rfl : request = _ := hserves
    exact ⟨owner, g, stepped_of_finished howned (leaves_refl ..) (hg.skip rfl)⟩
  | loadOrStore hash key value =>
    obtain rfl : request = _ := hserves
    exact stepped_loadOrStore howned hg hash key value
  | storeField hash key value inner =>
    obtain rfl : request = _ := hserves
    exact stepped_onMap howned hg hnow hphase rfl rfl _ serve_hset
  | loadHash hash key =>
    obtain rfl : request = _ := hserves
    exact stepped_loadHash order howned hg hnow hash key
  | loadField hash key inner =>
    obtain rfl : request = _ := hserves
    have hstep := stepped_onMap howned hg hnow hphase rfl rfl (s.maps.cell inner) serve_hget
    rw [Memory.write_cell_self] at hstep
    exact hstep
  | loadAll hash =>
    obtain rfl : request = _ := hserves
    rw [SyncMapStore.advance]
    cases s.hashes.lookup hash with
    | none => exact ⟨owner, g, stepped_of_finished howned (leaves_refl ..) (hg.skip rfl)⟩
    | some inner =>
      exact ⟨owner, g, stepped_of_running howned (leaves_refl ..) hg
        (running_of_holds_none ⟨hash, rfl⟩ rfl)⟩
  | startRange inner =>
    have hg' : Kept h { s with ranges := s.ranges + 1 } owner calls g :=
      hg.frame howned rfl le_rfl fun _ _ _ ↦ ⟨rfl, rfl⟩
    exact ⟨owner, g, stepped_of_running howned
      ⟨le_rfl, fun _ _ ↦ rfl, fun _ _ _ hheld ↦ hheld⟩ hg' (running_of_holds_none hserves rfl)⟩
  | range inner todo out =>
    cases todo with
    | nil =>
      obtain ⟨hash, rfl⟩ := hserves
      exact ⟨owner, g, stepped_of_finished howned (leaves_refl ..) (hg.skip rfl)⟩
    | cons key todo =>
      exact ⟨owner, g, stepped_of_running howned (leaves_refl ..) hg
        (running_of_holds_none hserves rfl)⟩

end Step

/-! ### Every schedule -/

/-- The ledger of a hash is kept, and the threads are on their way. -/
def Ordered {ι : Type} (h : GoString) (c : Config ι SyncMapStore Phase)
    (τ : Timeline ι Request Reply) : Prop :=
  ∃ owner g, Owned c.shared owner ∧ Kept h c.shared owner τ.calls g ∧
    ∀ i, (c.threads i).idle = false → ∃ request entered, τ.last i = some (request, entered) ∧
      Running h c.shared owner g request entered (c.threads i)

section Ordered

variable {ι : Type} {h : GoString} {c : Config ι SyncMapStore Phase}
  {τ : Timeline ι Request Reply} {i : ι}

theorem ordered_new (h : GoString) (reply : Reply) :
    Ordered h (⟨new, fun _ : ι ↦ .finished reply⟩) .start := by
  refine ⟨fun _ ↦ [], ⟨[], [], none⟩, owned_new _, ?_, fun i hi ↦ absurd hi (by simp [Phase.idle])⟩
  exact
    { linear := ⟨.new, linearizes_nil⟩
      closed := fun _ he ↦ absurd he List.not_mem_nil
      gap := rfl
      current := rfl
      calls := fun _ _ hnone ↦ absurd hnone (by simp)
      nodup := List.nodup_nil
      later := List.Pairwise.nil
      last := fun _ he ↦ absurd he List.not_mem_nil }

variable [DecidableEq ι]

theorem Ordered.enter (hc : Ordered h c τ) (request : Request) :
    Ordered h ⟨c.shared, Function.update c.threads i (Phase.enter request)⟩
      (τ.see (.enter i request)) := by
  obtain ⟨owner, g, howned, hg, hthreads⟩ := hc
  refine ⟨owner, g, howned, hg, fun j hj ↦ ?_⟩
  show ∃ r entered, Function.update τ.last i (some (request, τ.time)) j = some (r, entered) ∧
    Running h c.shared owner g r entered (Function.update c.threads i (Phase.enter request) j)
  by_cases hji : j = i
  · rw [hji, Function.update_self, Function.update_self]
    exact ⟨request, τ.time, rfl,
      running_of_holds_none (Phase.serves_enter request) (Phase.holds_enter request)⟩
  · have hidle : (Function.update c.threads i (Phase.enter request) j).idle = false := hj
    rw [Function.update_of_ne hji] at hidle
    rw [Function.update_of_ne hji, Function.update_of_ne hji]
    exact hthreads j hidle

theorem Ordered.advance (hc : Ordered h c τ) (hτ : τ.Timed) (order : RangeOrder)
    (hbusy : (c.threads i).idle = false) :
    Ordered h ⟨(advance order c.shared (c.threads i)).1,
        Function.update c.threads i (advance order c.shared (c.threads i)).2⟩
      (ThreadSystem.seeStep Phase.reply τ i (advance order c.shared (c.threads i)).2) := by
  obtain ⟨owner, g, howned, hg, hthreads⟩ := hc
  obtain ⟨request, entered, hlast, hphase⟩ := hthreads i hbusy
  have hnow : ∀ a ∈ τ.calls, a.entered ≤ τ.time ∧ a.returned ≤ τ.time :=
    fun a ha ↦ ⟨hτ.entered_le a ha, hτ.returned_le a ha⟩
  obtain ⟨owner', g', hstep⟩ := Running.advance order howned hg hnow hphase
  have hothers (j : ι) (hji : j ≠ i) (phase : Phase)
      (hj : (Function.update c.threads i phase j).idle = false) :
      ∃ r e, τ.last j = some (r, e) ∧
        Running h (SyncMapStore.advance order c.shared (c.threads i)).1 owner' g' r e
          (Function.update c.threads i phase j) := by
    rw [Function.update_of_ne hji] at hj ⊢
    obtain ⟨r, e, hr, hrunning⟩ := hthreads j hj
    exact ⟨r, e, hr, hrunning.leaves hstep.leaves (hτ.last_le j _ hr)⟩
  cases hreply : (SyncMapStore.advance order c.shared (c.threads i)).2.reply with
  | none =>
    obtain ⟨hkept, hrunning⟩ := hstep.goesOn hreply
    rw [ThreadSystem.seeStep, hreply]
    refine ⟨owner', g', hstep.owned, hkept, fun j hj ↦ ?_⟩
    by_cases hji : j = i
    · rw [hji]
      refine ⟨request, entered, hlast, ?_⟩
      simp only [Function.update_self]
      exact hrunning
    · exact hothers j hji _ hj
  | some reply =>
    have hfinished : (SyncMapStore.advance order c.shared (c.threads i)).2 = .finished reply := by
      cases hresult : (SyncMapStore.advance order c.shared (c.threads i)).2 with
      | finished other =>
        rw [hresult] at hreply
        exact congrArg Phase.finished (Option.some.inj hreply)
      | _ =>
        rw [hresult] at hreply
        exact absurd hreply (by simp [Phase.reply])
    have hkept := hstep.returned reply hfinished
    rw [ThreadSystem.seeStep, hreply]
    refine ⟨owner', g', hstep.owned, ?_, fun j hj ↦ ?_⟩
    · rw [Timeline.calls_see_finish hlast]
      exact hkept
    · by_cases hji : j = i
      · rw [hji] at hj
        simp only [Function.update_self, hfinished] at hj
        exact absurd hj (by simp [Phase.idle])
      · exact hothers j hji _ hj

end Ordered

/-- In every schedule of any number of threads over the store on concurrent maps, the calls of
`HSet`, `HGet` and `Del` on any one hash that have returned are linearizable: in some order that
respects which call had returned before another was entered, they have the replies that the map
store gives to them one after another. The other calls of the store may run at the same time. -/
theorem syncMap_hash_linearizable {ι : Type} [DecidableEq ι] (order : RangeOrder) (h : GoString)
    (events : List (Event ι Request)) :
    Linearizable MapStore.serve .new
      (((syncMapThreads order).timeline Phase.reply ⟨new, fun _ : ι ↦ .finished .nothing⟩
        events).calls.filter fun c ↦ concerns h c.call) := by
  have hordered := (syncMapThreads order).timeline_invariant Phase.reply (Ordered h)
    (fun c τ i request hc _ _ ↦ hc.enter request)
    (fun c τ i hc hτ hbusy ↦ hc.advance hτ order hbusy) (ordered_new h .nothing) events
  obtain ⟨owner, g, -, hg, -⟩ := hordered
  obtain ⟨final, hlinear⟩ := hg.linear
  exact ⟨g.order, final, hlinear⟩

end FluxCache.Store.SyncMapStore
