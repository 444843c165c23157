import FluxCache.Store.LockFreeInvariant

/-!
# Updates of the lock-free store are atomic

A schedule leaves two kinds of marks: a thread has entered an update, and a thread has published one
by a successful swap. In every configuration that any schedule reaches, the contents of a bucket are
what the published updates of the bucket make of an empty one, in the order of their swaps; and the
updates that a thread has entered are the ones it has published, each once and in order, followed by
the one that is still on its way. A read returns the answer of the contents that its bucket had when
it loaded the pointer, whatever the other threads do before it returns.
-/

set_option autoImplicit false
set_option relaxedAutoImplicit false

namespace FluxCache.Store.LockFree

open FluxCache.Foundation

variable {ι : Type} {count : ℕ} {i : ι}

/-! ### Marks -/

/-- What happens to an update of a thread. -/
inductive Mark (ι : Type)
  | entered (i : ι) (u : Update)
  | published (i : ι) (u : Update)

/-- The update that a thread is working on. -/
def Phase.pending : Phase → Option Update
  | .finished _ | .stopped _ => none
  | .load u | .cloneStrings u _ | .makeHashes u _ _ | .cloneHash u _ _ _ _ => some u
  | .mutate u _ _ | .mutateHash u _ _ | .compareAndSwap u _ _ => some u
  | .loadRead _ | .readData _ _ | .readHash _ _ => none

/-- The mark of an event. -/
def mark [NeZero count] (c : Config ι (LockFreeStore count) Phase) :
    Event ι Request → List (Mark ι)
  | .enter i (.update u) => [.entered i u]
  | .enter _ (.read _) => []
  | .advance i => (published c.shared (c.threads i)).toList.map (.published i)

/-- All published updates, in the order of the swaps. -/
def publishedUpdates (marks : List (Mark ι)) : List Update :=
  marks.filterMap fun
    | .entered _ _ => none
    | .published _ u => some u

/-- The updates that a thread has published. -/
def publishedBy [DecidableEq ι] (i : ι) (marks : List (Mark ι)) : List Update :=
  marks.filterMap fun
    | .entered _ _ => none
    | .published j u => if j = i then some u else none

/-- The updates that a thread has entered. -/
def enteredBy [DecidableEq ι] (i : ι) (marks : List (Mark ι)) : List Update :=
  marks.filterMap fun
    | .entered j u => if j = i then some u else none
    | .published _ _ => none

/-- The marks after a step that publishes at most one update of a thread. -/
theorem publishedUpdates_append (marks : List (Mark ι)) (i : ι) (found : Option Update) :
    publishedUpdates (marks ++ found.toList.map (.published i)) =
      publishedUpdates marks ++ found.toList := by
  cases found with
  | none => simp [publishedUpdates]
  | some u => simp [publishedUpdates]

theorem publishedBy_append [DecidableEq ι] (marks : List (Mark ι)) (i j : ι)
    (found : Option Update) :
    publishedBy j (marks ++ found.toList.map (.published i)) =
      publishedBy j marks ++ if j = i then found.toList else [] := by
  cases found with
  | none => simp [publishedBy]
  | some u =>
    by_cases hji : j = i
    · simp [publishedBy, hji]
    · simp [publishedBy, hji, Ne.symm hji]

theorem enteredBy_append [DecidableEq ι] (marks : List (Mark ι)) (i j : ι)
    (found : Option Update) :
    enteredBy j (marks ++ found.toList.map (.published i)) = enteredBy j marks := by
  cases found with
  | none => simp [enteredBy]
  | some u => simp [enteredBy]

variable [NeZero count] [DecidableEq ι]

omit [DecidableEq ι] in
/-- What a thread works on is published or still to do after its step. -/
theorem pending_advance (env : Environment) {s : LockFreeStore count} {own : Owners ι}
    {phase : Phase} (h : PhaseInv (advance env s phase).1 own i (advance env s phase).2) :
    phase.pending.toList =
      (published s phase).toList ++ (advance env s phase).2.pending.toList := by
  cases phase with
  | finished reply => rfl
  | stopped fault => rfl
  | load u => rfl
  | cloneStrings u old => rfl
  | makeHashes u old strings => rfl
  | cloneHash u old strings hashes rest =>
    cases rest with
    | nil => rfl
    | cons hash rest => rfl
  | mutate u old data =>
    cases u with
    | write w =>
      cases w with
      | set key value => rfl
      | hset hash key value => rfl
    | del key => rfl
  | mutateHash u old data =>
    cases u with
    | write w =>
      cases w with
      | set key value => rfl
      | hset hash key value =>
        simp only [advance, mutateHash] at h ⊢
        cases hlookup : (s.tables.cell (s.data.cell data).hashes).lookup hash with
        | none =>
          rw [hlookup] at h
          exact absurd h id
        | some inner => rfl
    | del key => rfl
  | compareAndSwap u old data =>
    by_cases hold : s.buckets (bucket count u.key) = old
    · rw [published, if_pos hold, advance, if_pos hold]
      rfl
    · rw [published, if_neg hold, advance, if_neg hold]
      rfl
  | loadRead r => rfl
  | readData r data =>
    cases r with
    | get key => rfl
    | hget hash key =>
      simp only [advance, readData]
      cases (s.tables.cell (s.data.cell data).hashes).lookup hash with
      | none => rfl
      | some inner => rfl
    | hgetAll hash =>
      simp only [advance, readData]
      cases (s.tables.cell (s.data.cell data).hashes).lookup hash with
      | none => rfl
      | some inner => rfl
  | readHash r inner => rfl

/-! ### All threads -/

/-- What holds of the store and of all threads, for some assignment of owners. -/
def Sound (c : Config ι (LockFreeStore count) Phase) (own : Owners ι) : Prop :=
  Published c.shared own ∧ ∀ i, PhaseInv c.shared own i (c.threads i)

omit [NeZero count] [DecidableEq ι] in
theorem sound_new (reply : Reply) :
    Sound (⟨LockFreeStore.new count, fun _ : ι ↦ .finished reply⟩)
      ⟨fun _ ↦ none, fun _ ↦ none, fun _ ↦ none⟩ := by
  refine ⟨fun b ↦ ⟨⟨b.isLt, rfl⟩, ⟨b.isLt, rfl⟩, ⟨b.isLt, rfl⟩, fun hash p hp ↦ ?_⟩,
    fun _ ↦ trivial⟩
  exact absurd hp (by simp [LockFreeStore.new])

omit [NeZero count] in
theorem Sound.enter {c : Config ι (LockFreeStore count) Phase} {own : Owners ι} (hc : Sound c own)
    (i : ι) (request : Request) :
    Sound ⟨c.shared, Function.update c.threads i (Phase.enter request)⟩ own := by
  refine ⟨hc.1, fun j ↦ ?_⟩
  by_cases hji : j = i
  · show PhaseInv c.shared own j (Function.update c.threads i (Phase.enter request) j)
    rw [hji, Function.update_self]
    cases request with
    | update u => exact trivial
    | read r => exact trivial
  · show PhaseInv c.shared own j (Function.update c.threads i (Phase.enter request) j)
    rw [Function.update_of_ne hji]
    exact hc.2 j

/-- The step of a thread, seen by all threads. -/
theorem Advanced.sound {c : Config ι (LockFreeStore count) Phase} {own own' : Owners ι}
    {result : LockFreeStore count × Phase} (hc : Sound c own)
    (hstep : Advanced i c.shared own (c.threads i) result own') :
    Sound ⟨result.1, Function.update c.threads i result.2⟩ own' := by
  refine ⟨hstep.published, fun j ↦ ?_⟩
  by_cases hji : j = i
  · show PhaseInv result.1 own' j (Function.update c.threads i result.2 j)
    rw [hji, Function.update_self]
    exact hstep.inv
  · show PhaseInv result.1 own' j (Function.update c.threads i result.2 j)
    rw [Function.update_of_ne hji]
    exact (hc.2 j).evolves hstep.evolves hji

/-! ### Updates -/

/-- The contents of the buckets are what the published updates have made, and the updates of a
thread are published or on their way. -/
structure Atomic (c : Config ι (LockFreeStore count) Phase) (marks : List (Mark ι)) : Prop where
  sound : ∃ own, Sound c own
  contents_eq : ∀ b, contents c.shared (c.shared.buckets b) =
    (onBucket b (publishedUpdates marks)).foldl Update.apply MapStore.new
  updates_eq : ∀ i, enteredBy i marks = publishedBy i marks ++ (c.threads i).pending.toList

theorem Atomic.enter {c : Config ι (LockFreeStore count) Phase} {marks : List (Mark ι)}
    (hc : Atomic c marks) (hidle : (c.threads i).idle = true) (request : Request) :
    Atomic ⟨c.shared, Function.update c.threads i (Phase.enter request)⟩
      (marks ++ mark c (.enter i request)) := by
  obtain ⟨own, hsound⟩ := hc.sound
  have hpending : (c.threads i).pending = none := by
    cases hphase : c.threads i with
    | finished reply => rfl
    | _ => exact absurd hidle (by rw [hphase]; simp [Phase.idle])
  refine ⟨⟨own, hsound.enter i request⟩, fun b ↦ ?_, fun j ↦ ?_⟩
  · show contents c.shared (c.shared.buckets b) = _
    rw [hc.contents_eq b]
    cases request with
    | update u => simp [mark, publishedUpdates]
    | read r => simp [mark]
  · have hj := hc.updates_eq j
    by_cases hji : j = i
    · rw [hji, hpending, Option.toList_none, List.append_nil] at hj
      rw [hji]
      simp only [Function.update_self]
      cases request with
      | update u =>
        simp only [mark, enteredBy, publishedBy, List.filterMap_append] at hj ⊢
        rw [hj]
        simp [Phase.enter, Phase.pending]
      | read r =>
        rw [mark, List.append_nil, hj]
        simp [Phase.enter, Phase.pending]
    · simp only [Function.update_of_ne hji]
      cases request with
      | update u =>
        simp only [mark, enteredBy, publishedBy, List.filterMap_append] at hj ⊢
        rw [hj]
        simp [Ne.symm hji]
      | read r =>
        rw [mark, List.append_nil, hj]

theorem Atomic.advance {c : Config ι (LockFreeStore count) Phase} {marks : List (Mark ι)}
    (hc : Atomic c marks) (env : Environment) (i : ι) :
    Atomic ⟨(advance env c.shared (c.threads i)).1,
        Function.update c.threads i (advance env c.shared (c.threads i)).2⟩
      (marks ++ mark c (.advance i)) := by
  obtain ⟨own, hsound⟩ := hc.sound
  obtain ⟨own', hstep⟩ := (hsound.2 i).advance env hsound.1
  refine ⟨⟨own', Advanced.sound hsound hstep⟩, fun b ↦ ?_, fun j ↦ ?_⟩
  · rw [hstep.contents_eq b, hc.contents_eq b, mark, publishedUpdates_append]
    unfold onBucket
    rw [List.filter_append, List.foldl_append]
  · have hj := hc.updates_eq j
    rw [mark, enteredBy_append, publishedBy_append, hj, List.append_assoc]
    by_cases hji : j = i
    · subst hji
      rw [if_pos rfl, pending_advance env hstep.inv]
      simp only [Function.update_self]
    · rw [if_neg hji, List.nil_append]
      simp only [Function.update_of_ne hji]

theorem atomic_new (reply : Reply) :
    Atomic (⟨LockFreeStore.new count, fun _ : ι ↦ .finished reply⟩) [] := by
  refine ⟨⟨_, sound_new reply⟩, fun b ↦ ?_, fun _ ↦ rfl⟩
  refine MapStore.ext rfl (Finmap.ext_lookup fun k ↦ ?_)
  exact lookup_mapValues _ _ _

/-! ### Reads -/

/-- What holds of a thread that has loaded the pointer for a read when the contents were `m`. -/
def ReadPhase (r : Read) (m : MapStore) (s : LockFreeStore count) : Phase → Prop
  | .readData r' data => r' = r ∧ contents s data = m
  | .readHash r' inner => r' = r ∧ readHash s inner r = r.answer m
  | .finished reply => reply = r.answer m
  | _ => False

omit [NeZero count] [DecidableEq ι] in
/-- A step of another thread changes nothing for a read. -/
theorem ReadPhase.evolves {r : Read} {m : MapStore} {s s' : LockFreeStore count}
    {own own' : Owners ι} {j : ι} {phase : Phase} (h : ReadPhase r m s phase)
    (hinv : PhaseInv s own j phase) (he : Evolves i s own s' own') : ReadPhase r m s' phase := by
  cases phase with
  | readData r' data =>
    have hdata : HoldsData s own none data := hinv
    exact ⟨h.1, (hdata.contents_eq he (by simp)).trans h.2⟩
  | readHash r' inner =>
    have hinner : s.maps.Held own.maps none inner := hinv
    refine ⟨h.1, ?_⟩
    rw [← h.2]
    unfold readHash
    rw [hinner.cell_eq he.maps (by simp)]
  | finished reply => exact h
  | _ => exact absurd h id

/-- The steps of a read find what the contents at its load hold. -/
theorem ReadPhase.advance {r : Read} {m : MapStore} {s : LockFreeStore count} {phase : Phase}
    (h : ReadPhase r m s phase) (env : Environment) :
    ReadPhase r m (advance env s phase).1 (advance env s phase).2 := by
  cases phase with
  | readData r' data =>
    obtain ⟨rfl, rfl⟩ := h
    have hhash : ∀ hash, (contents s data).hashes.lookup hash =
        ((s.tables.cell (s.data.cell data).hashes).lookup hash).map s.maps.cell := by
      intro hash
      rw [contents, contentsOf, lookup_mapValues]
    cases r' with
    | get key => rfl
    | hget hash key =>
      have hanswer : (Read.hget hash key).answer (contents s data) =
          .value (commaOk (((contents s data).hashes.lookup hash).bind fun t ↦ t.lookup key)) := rfl
      simp only [LockFree.advance, readData]
      cases hlookup : (s.tables.cell (s.data.cell data).hashes).lookup hash with
      | none =>
        rw [hhash, hlookup] at hanswer
        exact hanswer.symm
      | some inner =>
        rw [hhash, hlookup] at hanswer
        exact ⟨rfl, hanswer.symm⟩
    | hgetAll hash =>
      have hanswer : (Read.hgetAll hash).answer (contents s data) =
          .fields ((contents s data).hashes.lookup hash) := rfl
      simp only [LockFree.advance, readData]
      cases hlookup : (s.tables.cell (s.data.cell data).hashes).lookup hash with
      | none =>
        rw [hhash, hlookup] at hanswer
        exact hanswer.symm
      | some inner =>
        rw [hhash, hlookup] at hanswer
        exact ⟨rfl, hanswer.symm⟩
  | readHash r' inner =>
    obtain ⟨rfl, hanswer⟩ := h
    exact hanswer
  | finished reply => exact h
  | _ => exact absurd h id

/-- A read that has loaded the pointer of its bucket returns what the contents hold at the load,
whatever happens before it returns.

Assumes: the thread of the read enters no other call. -/
theorem read_answer (env : Environment) {c : Config ι (LockFreeStore count) Phase} {own : Owners ι}
    (hc : Sound c own) {r : Read} (hload : c.threads i = .loadRead r)
    {later : List (Event ι Request)} (hlater : ∀ request, .enter i request ∉ later) {reply : Reply}
    (hreply : ((lockFreeThreads env count).run
      ((lockFreeThreads env count).step c (.advance i)) later).threads i = .finished reply) :
    reply = r.answer (contents c.shared (c.shared.buckets (bucket count r.key))) := by
  obtain ⟨m, hm⟩ : ∃ m, contents c.shared (c.shared.buckets (bucket count r.key)) = m := ⟨_, rfl⟩
  rw [hm]
  obtain ⟨own', hloaded⟩ := (hc.2 i).advance env hc.1
  have hbusy : ¬(lockFreeThreads env count).idle (c.threads i) = true := by
    rw [hload]
    simp [lockFreeThreads, Phase.idle]
  have hstep : (lockFreeThreads env count).step c (.advance i) =
      ⟨(advance env c.shared (c.threads i)).1,
        Function.update c.threads i (advance env c.shared (c.threads i)).2⟩ := if_neg hbusy
  have hstart : ∃ own, Sound ((lockFreeThreads env count).step c (.advance i)) own ∧
      ReadPhase r m ((lockFreeThreads env count).step c (.advance i)).shared
        (((lockFreeThreads env count).step c (.advance i)).threads i) := by
    rw [hstep]
    refine ⟨own', Advanced.sound hc hloaded, ?_⟩
    simp only [Function.update_self, hload]
    exact ⟨rfl, hm⟩
  have hguarded : (lockFreeThreads env count).Guarded
      (fun _ event ↦ ∀ request, event ≠ .enter i request)
      ((lockFreeThreads env count).step c (.advance i)) later :=
    ThreadSystem.guarded_of_forall fun _ event hevent request hsame ↦
      hlater request (hsame ▸ hevent)
  have hend : ∃ own, Sound ((lockFreeThreads env count).run
        ((lockFreeThreads env count).step c (.advance i)) later) own ∧
      ReadPhase r m ((lockFreeThreads env count).run
        ((lockFreeThreads env count).step c (.advance i)) later).shared
        (((lockFreeThreads env count).run
          ((lockFreeThreads env count).step c (.advance i)) later).threads i) := by
    refine ThreadSystem.run_invariant (fun _ _ ↦ ([] : List Unit))
      (fun c _ ↦ ∃ own, Sound c own ∧ ReadPhase r m c.shared (c.threads i)) []
      (fun c _ j request hc _ hother ↦ ?_) (fun c _ j hc _ _ ↦ ?_) hstart hguarded
    · obtain ⟨own, hsound, hread⟩ := hc
      refine ⟨own, hsound.enter j request, ?_⟩
      have hij : i ≠ j := fun h ↦ hother request (h ▸ rfl)
      show ReadPhase r m c.shared (Function.update c.threads j _ i)
      rw [Function.update_of_ne hij]
      exact hread
    · obtain ⟨own, hsound, hread⟩ := hc
      obtain ⟨own', hadvanced⟩ := (hsound.2 j).advance env hsound.1
      refine ⟨own', Advanced.sound hsound hadvanced, ?_⟩
      show ReadPhase r m (advance env c.shared (c.threads j)).1
        (Function.update c.threads j (advance env c.shared (c.threads j)).2 i)
      by_cases hij : i = j
      · subst hij
        rw [Function.update_self]
        exact hread.advance env
      · rw [Function.update_of_ne hij]
        exact hread.evolves (hsound.2 i) hadvanced.evolves
  obtain ⟨own'', -, hread⟩ := hend
  rw [hreply] at hread
  exact hread

end FluxCache.Store.LockFree

namespace FluxCache.Store

open FluxCache.Foundation LockFree

/-- Any number of threads call a store with any number of buckets, in any order of their steps. The
contents of every bucket are what the updates that have swapped its pointer make of an empty bucket,
in the order of the swaps; the updates that a thread has entered are the ones that it has published,
each once and in their order, followed by the one on its way; and a read returns the answer of the
contents of its bucket at its load. -/
theorem lockFree_atomic {ι : Type} [DecidableEq ι] (env : Environment) (shardCount : ℤ)
    (events : List (Event ι Request)) :
    let T := lockFreeThreads env (bucketCount shardCount)
    let start : Config ι (LockFreeStore (bucketCount shardCount)) Phase :=
      ⟨LockFreeStore.new (bucketCount shardCount), fun _ ↦ .finished .nothing⟩
    let c := T.run start events
    let marks := T.observed mark start events
    (∀ b, contents c.shared (c.shared.buckets b) =
      (onBucket b (publishedUpdates marks)).foldl Update.apply MapStore.new) ∧
    (∀ i, enteredBy i marks = publishedBy i marks ++ (c.threads i).pending.toList) ∧
    ∀ i r later reply, c.threads i = .loadRead r → (∀ request, .enter i request ∉ later) →
      (T.run (T.step c (.advance i)) later).threads i = .finished reply →
      reply = r.answer (contents c.shared (c.shared.buckets (bucket _ r.key))) := by
  intro T start c marks
  have hguarded : T.Guarded (fun _ _ ↦ True) start events :=
    ThreadSystem.guarded_of_forall fun _ _ _ ↦ trivial
  have hatomic : Atomic c ([] ++ marks) :=
    ThreadSystem.run_invariant mark Atomic []
      (fun c marks i request hc hidle _ ↦ hc.enter hidle request)
      (fun c marks i hc _ _ ↦ hc.advance env i) (atomic_new .nothing) hguarded
  obtain ⟨own, hsound⟩ := hatomic.sound
  exact ⟨hatomic.contents_eq, hatomic.updates_eq,
    fun i r later reply hload hlater hreply ↦ read_answer env hsound hload hlater hreply⟩

end FluxCache.Store
