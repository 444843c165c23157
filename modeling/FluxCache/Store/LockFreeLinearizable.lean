import FluxCache.Foundation.Linearizability
import FluxCache.Store.Sharded

/-!
# The lock-free store is linearizable

An update of the lock-free store takes effect with the swap that ends it. A read has its answer from
the moment it loads the pointer of its bucket, and ends later; until then it keeps a place in the
order of the calls. So in every schedule the calls that have returned can be put in one order which
the map store explains, for all keys together: the buckets cover the map store that the order leads
to.
-/

set_option autoImplicit false
set_option relaxedAutoImplicit false

namespace FluxCache.Store.LockFree

open FluxCache.Foundation

variable {ι : Type} {count : ℕ} {i : ι}

/-! ### Phases -/

/-- The reply of a call that has returned. -/
def Phase.reply : Phase → Option Reply
  | .finished reply => some reply
  | _ => none

/-- The read that has loaded the pointer of its bucket. -/
def Phase.reading : Phase → Option Read
  | .readData r _ | .readHash r _ => some r
  | _ => none

/-- What a thread that runs is busy with. -/
theorem Phase.busy_cases {s : LockFreeStore count} {own : Owners ι} {phase : Phase}
    (hinv : PhaseInv s own i phase) (hbusy : phase.idle = false) :
    (∃ u, phase.pending = some u) ∨ (∃ r, phase = .loadRead r) ∨ ∃ r, phase.reading = some r := by
  cases phase with
  | finished reply => exact absurd hbusy (by simp [Phase.idle])
  | stopped fault => exact absurd hinv id
  | loadRead r => exact Or.inr (Or.inl ⟨r, rfl⟩)
  | readData r data => exact Or.inr (Or.inr ⟨r, rfl⟩)
  | readHash r inner => exact Or.inr (Or.inr ⟨r, rfl⟩)
  | _ => exact Or.inl ⟨_, rfl⟩

/-- A thread that works on an update neither reads nor has returned. -/
theorem Phase.of_pending {phase : Phase} {u : Update} (h : phase.pending = some u) :
    phase.reply = none ∧ phase.reading = none ∧ ∀ r, phase ≠ .loadRead r := by
  cases phase with
  | finished reply => exact absurd h (by simp [Phase.pending])
  | stopped fault => exact absurd h (by simp [Phase.pending])
  | loadRead r => exact absurd h (by simp [Phase.pending])
  | readData r data => exact absurd h (by simp [Phase.pending])
  | readHash r inner => exact absurd h (by simp [Phase.pending])
  | _ => exact ⟨rfl, rfl, by simp⟩

/-- A thread that reads publishes nothing and leaves the store as it is. -/
theorem Phase.of_reading [NeZero count] {phase : Phase} {r : Read} (h : phase.reading = some r)
    (env : Environment) (s : LockFreeStore count) :
    published s phase = none ∧ phase.pending = none ∧ (advance env s phase).1 = s := by
  cases phase with
  | readData r' data => exact ⟨rfl, rfl, rfl⟩
  | readHash r' inner => exact ⟨rfl, rfl, rfl⟩
  | _ => exact absurd h (by simp [Phase.reading])

/-- What a read that has loaded the pointer does next: it goes on, or it returns its answer. -/
theorem ReadPhase.cases {r : Read} {m : MapStore} {s : LockFreeStore count} {phase : Phase}
    (h : ReadPhase r m s phase) :
    phase.reply = none ∧ phase.reading = some r ∧ phase.pending = none ∧
        (∀ r', phase ≠ .loadRead r') ∨
      phase = .finished (r.answer m) := by
  cases phase with
  | readData r' data => exact Or.inl ⟨rfl, congrArg some h.1, rfl, by simp⟩
  | readHash r' inner => exact Or.inl ⟨rfl, congrArg some h.1, rfl, by simp⟩
  | finished reply => exact Or.inr (congrArg Phase.finished h)
  | _ => exact absurd h id

/-! ### The invariant -/

/-- What is known of a thread: it has entered the call that it is busy with, and a read that has its
answer has a place in the order. -/
structure Running (s : LockFreeStore count) (order : List (Completed Request Reply))
    (last : Option (Request × ℕ)) (phase : Phase) : Prop where
  update : ∀ u, phase.pending = some u → ∃ entered, last = some (.update u, entered)
  load : ∀ r, phase = .loadRead r → ∃ entered, last = some (.read r, entered)
  read : ∀ r, phase.reading = some r → ∃ m entered, last = some (.read r, entered) ∧
    ReadPhase r m s phase ∧
    Place MapStore.serve .new order (.read r) (r.answer m) entered

theorem running_finished (s : LockFreeStore count) (order : List (Completed Request Reply))
    (last : Option (Request × ℕ)) (reply : Reply) : Running s order last (.finished reply) :=
  ⟨fun _ h ↦ absurd h (by simp [Phase.pending]), fun _ h ↦ absurd h (by simp),
    fun _ h ↦ absurd h (by simp [Phase.reading])⟩

/-- A step of another thread, with what it does to the order. -/
theorem Running.evolves {s s' : LockFreeStore count} {own own' : Owners ι} {j : ι}
    {order order' : List (Completed Request Reply)} {last : Option (Request × ℕ)} {phase : Phase}
    (h : Running s order last phase) (hinv : PhaseInv s own j phase)
    (he : Evolves i s own s' own')
    (hplace : ∀ r reply entered, last = some (.read r, entered) →
      Place MapStore.serve .new order (.read r) reply entered →
      Place MapStore.serve .new order' (.read r) reply entered) :
    Running s' order' last phase := by
  refine ⟨h.update, h.load, fun r hr ↦ ?_⟩
  obtain ⟨m, entered, hlast, hphase, hat⟩ := h.read r hr
  exact ⟨m, entered, hlast, hphase.evolves hinv he, hplace r _ entered hlast hat⟩

variable [NeZero count]

/-- The calls that have returned are in an order that the map store explains, the buckets cover the
state that it leads to, and the threads are on their way. -/
def Ordered (c : Config ι (LockFreeStore count) Phase) (τ : Timeline ι Request Reply) : Prop :=
  ∃ own order m, Sound c own ∧ Linearizes MapStore.serve .new τ.calls order m ∧
    Covers (bucket count) (fun b ↦ contents c.shared (c.shared.buckets b)) m ∧
    ∀ i, Running c.shared order (τ.last i) (c.threads i)

variable {c : Config ι (LockFreeStore count) Phase} {τ : Timeline ι Request Reply}

theorem ordered_new (reply : Reply) :
    Ordered (⟨LockFreeStore.new count, fun _ : ι ↦ .finished reply⟩) .start :=
  ⟨_, [], .new, sound_new reply, linearizes_nil, covers_new (bucket count),
    fun _ ↦ running_finished ..⟩

theorem Ordered.enter [DecidableEq ι] (h : Ordered c τ) (request : Request) :
    Ordered ⟨c.shared, Function.update c.threads i (Phase.enter request)⟩
      (τ.see (.enter i request)) := by
  obtain ⟨own, order, m, hsound, horder, hcovers, hrunning⟩ := h
  refine ⟨own, order, m, hsound.enter i request, horder, hcovers, fun j ↦ ?_⟩
  show Running c.shared order (Function.update τ.last i (some (request, τ.time)) j)
    (Function.update c.threads i (Phase.enter request) j)
  by_cases hj : j = i
  · rw [hj, Function.update_self, Function.update_self]
    cases request with
    | update u =>
      refine ⟨fun u' hu ↦ ⟨τ.time, ?_⟩, fun r hr ↦ absurd hr (by simp [Phase.enter]),
        fun r hr ↦ absurd hr (by simp [Phase.enter, Phase.reading])⟩
      rw [← Option.some.inj (show some u = some u' from hu)]
    | read r =>
      refine ⟨fun u hu ↦ absurd hu (by simp [Phase.enter, Phase.pending]), fun r' hr ↦
        ⟨τ.time, ?_⟩, fun r' hr ↦ absurd hr (by simp [Phase.enter, Phase.reading])⟩
      rw [Phase.loadRead.inj (show Phase.loadRead r = .loadRead r' from hr)]
  · rw [Function.update_of_ne hj, Function.update_of_ne hj]
    exact hrunning j

/-! ### Steps -/

section Advance

variable {own own' : Owners ι} {order : List (Completed Request Reply)} {m : MapStore}
  {env : Environment}

/-- A step that publishes nothing leaves what the buckets cover. -/
theorem covers_of_unpublished {s : LockFreeStore count} {phase : Phase}
    {result : LockFreeStore count × Phase} (hstep : Advanced i s own phase result own')
    (hcovers : Covers (bucket count) (fun b ↦ contents s (s.buckets b)) m)
    (hnone : published s phase = none) :
    Covers (bucket count) (fun b ↦ contents result.1 (result.1.buckets b)) m := by
  have hsame (b : Fin count) :
      contents result.1 (result.1.buckets b) = contents s (s.buckets b) := by
    rw [hstep.contents_eq b, hnone]
    rfl
  rw [funext hsame]
  exact hcovers

/-- The swap of an update is the update of the store. -/
theorem covers_of_published {s : LockFreeStore count} {phase : Phase}
    {result : LockFreeStore count × Phase} (hstep : Advanced i s own phase result own')
    (hcovers : Covers (bucket count) (fun b ↦ contents s (s.buckets b)) m) {u : Update}
    (hsome : published s phase = some u) :
    Covers (bucket count) (fun b ↦ contents result.1 (result.1.buckets b)) (u.apply m) := by
  have hupdate (b : Fin count) : contents result.1 (result.1.buckets b) =
      Function.update (fun b ↦ contents s (s.buckets b)) (bucket count u.key)
        (u.apply (contents s (s.buckets (bucket count u.key)))) b := by
    rw [hstep.contents_eq b, hsome]
    by_cases hb : bucket count u.key = b
    · rw [← hb, Function.update_self]
      simp [onBucket]
    · rw [Function.update_of_ne (Ne.symm hb)]
      simp [onBucket, hb]
  rw [funext hupdate]
  exact hcovers.update u

/-- Only a swap publishes, and it ends the call. -/
theorem advance_of_published {s : LockFreeStore count} {phase : Phase} {u : Update}
    (hsome : published s phase = some u) :
    (advance env s phase).2 = .finished .nothing ∧ phase.pending = some u := by
  cases phase with
  | compareAndSwap u' old data =>
    rw [published, Option.ite_none_right_eq_some] at hsome
    rw [advance, if_pos hsome.1]
    exact ⟨rfl, hsome.2⟩
  | _ => exact absurd hsome (by simp [published])

/-- The step of a thread, seen by the others. -/
theorem running_others [DecidableEq ι] (order' : List (Completed Request Reply))
    {result : LockFreeStore count × Phase} (hsound : Sound c own)
    (hstep : Advanced i c.shared own (c.threads i) result own')
    (hrunning : ∀ j, Running c.shared order (τ.last j) (c.threads j))
    (hplace : ∀ j r reply entered, τ.last j = some (.read r, entered) →
      Place MapStore.serve .new order (.read r) reply entered →
      Place MapStore.serve .new order' (.read r) reply entered)
    (hown : Running result.1 order' (τ.last i) result.2) (j : ι) :
    Running result.1 order' (τ.last j) (Function.update c.threads i result.2 j) := by
  by_cases hj : j = i
  · rw [hj, Function.update_self]
    exact hown
  · rw [Function.update_of_ne hj]
    exact (hrunning j).evolves (hsound.2 j) hstep.evolves (hplace j)

end Advance

theorem Ordered.advance [DecidableEq ι] (h : Ordered c τ) (hτ : τ.Timed) (env : Environment)
    (hbusy : (c.threads i).idle = false) :
    Ordered ⟨(advance env c.shared (c.threads i)).1,
        Function.update c.threads i (advance env c.shared (c.threads i)).2⟩
      (ThreadSystem.seeStep Phase.reply τ i (advance env c.shared (c.threads i)).2) := by
  obtain ⟨own, order, m, hsound, horder, hcovers, hrunning⟩ := h
  obtain ⟨own', hstep⟩ := (hsound.2 i).advance env hsound.1
  have hsound' := Advanced.sound hsound hstep
  have hnow : ∀ {c : Completed Request Reply}, c ∈ τ.calls → c.entered ≤ τ.time :=
    fun hc ↦ hτ.entered_le _ hc
  rcases Phase.busy_cases (hsound.2 i) hbusy with ⟨u, hu⟩ | ⟨r, hr⟩ | ⟨r, hr⟩
  · obtain ⟨entered, hlast⟩ := (hrunning i).update u hu
    have hpending := pending_advance env hstep.inv
    cases hpublished : published c.shared (c.threads i) with
    | some u' =>
      -- the swap: the update goes to the end of the order
      obtain ⟨hfinished, hsame⟩ := @advance_of_published _ _ env _ _ _ hpublished
      obtain rfl := Option.some.inj (hu.symm.trans hsame)
      rw [hfinished]
      refine ⟨own', order ++ [⟨.update u, .nothing, entered, τ.time⟩], u.apply m,
        hfinished ▸ hsound', ?_, covers_of_published hstep hcovers hpublished, ?_⟩
      · rw [ThreadSystem.seeStep, Phase.reply, Timeline.calls_see_finish hlast]
        exact horder.append rfl fun a ha ↦ hnow ha
      · have hothers := running_others
          (order ++ [⟨.update u, .nothing, entered, τ.time⟩]) hsound hstep hrunning
          (fun j r reply entered hj hat ↦ hat.append (hτ.last_le j _ hj))
          (hfinished ▸ running_finished ..)
        rw [hfinished] at hothers
        exact hothers
    | none =>
      rw [hu, hpublished] at hpending
      have hafter : (LockFree.advance env c.shared (c.threads i)).2.pending = some u :=
        Option.toList_eq_singleton_iff.mp hpending.symm
      obtain ⟨hreply, hreading, hload⟩ := Phase.of_pending hafter
      rw [ThreadSystem.seeStep, hreply]
      refine ⟨own', order, m, hsound', horder, covers_of_unpublished hstep hcovers hpublished,
        running_others order hsound hstep hrunning (fun _ _ _ _ _ hat ↦ hat) ⟨?_, ?_, ?_⟩⟩
      · intro u' hu'
        rw [← Option.some.inj (hafter.symm.trans hu')]
        exact ⟨entered, hlast⟩
      · exact fun r hr ↦ absurd hr (hload r)
      · exact fun r hr ↦ absurd (hreading.symm.trans hr) (by simp)
  · -- the load of a read: its answer is fixed, and its place is the end of the order
    obtain ⟨entered, hlast⟩ := (hrunning i).load r hr
    have hadvance : LockFree.advance env c.shared (c.threads i) =
        (c.shared, .readData r (c.shared.buckets (bucket count r.key))) := by
      rw [hr]
      rfl
    have hnone : published c.shared (c.threads i) = none := by
      rw [hr]
      rfl
    rw [hadvance] at hstep hsound' ⊢
    refine ⟨own', order, m, hsound', horder, covers_of_unpublished hstep hcovers hnone,
      running_others order hsound hstep hrunning (fun _ _ _ _ _ hat ↦ hat) ⟨?_, ?_, ?_⟩⟩
    · exact fun u hu ↦ absurd hu (by simp [Phase.pending])
    · exact fun r hr ↦ absurd hr (by simp)
    · intro r' hr'
      obtain rfl := Option.some.inj (show some r = some r' from hr')
      refine ⟨contents c.shared (c.shared.buckets (bucket count r.key)), entered, hlast,
        ⟨rfl, rfl⟩, place_end horder.explains ?_⟩
      rw [MapStore.serve, ← hcovers.answer r]
  · -- a read that has its answer goes on or returns, and then it takes its place
    obtain ⟨m', entered, hlast, hphase, hat⟩ := (hrunning i).read r hr
    obtain ⟨hnone, -, hsame⟩ := Phase.of_reading hr env c.shared
    have hphase' := hphase.advance env
    have hcovers' := covers_of_unpublished hstep hcovers hnone
    rcases hphase'.cases with ⟨hreply, hreading, hpending, hload⟩ | hfinished
    · rw [ThreadSystem.seeStep, hreply]
      refine ⟨own', order, m, hsound', horder, hcovers',
        running_others order hsound hstep hrunning (fun _ _ _ _ _ hat ↦ hat) ⟨?_, ?_, ?_⟩⟩
      · exact fun u hu ↦ absurd (hpending.symm.trans hu) (by simp)
      · exact fun r hr ↦ absurd hr (hload r)
      · intro r' hr'
        obtain rfl := Option.some.inj (hreading.symm.trans hr')
        exact ⟨m', entered, hlast, hphase', hat⟩
    · obtain ⟨before, after, middle, rfl, hbefore, hreads, horder'⟩ := horder.insert_place
        (c := ⟨.read r, r.answer m', entered, τ.time⟩) hat fun a ha ↦ hnow ha
      rw [hfinished]
      refine ⟨own', before ++ ⟨.read r, r.answer m', entered, τ.time⟩ :: after, m,
        hfinished ▸ hsound', ?_, hcovers', ?_⟩
      · rw [ThreadSystem.seeStep, Phase.reply, Timeline.calls_see_finish hlast]
        exact horder'
      · have hothers := running_others
          (before ++ ⟨.read r, r.answer m', entered, τ.time⟩ :: after) hsound hstep hrunning
          (fun j r reply entered hj hat ↦
            hat.insert_unchanged hbefore hreads (hτ.last_le j _ hj))
          (hfinished ▸ running_finished ..)
        rw [hfinished] at hothers
        exact hothers

/-- In every schedule of any number of threads over a lock-free store with any number of buckets,
the calls that have returned are linearizable: in some order that respects which call had returned
before another was entered, they have the replies that the map store gives to them one after
another. -/
theorem lockFree_linearizable {ι : Type} [DecidableEq ι] (env : Environment) (shardCount : ℤ)
    (events : List (Event ι Request)) :
    Linearizable MapStore.serve .new
      ((lockFreeThreads env (bucketCount shardCount)).timeline Phase.reply
        ⟨LockFreeStore.new (bucketCount shardCount), fun _ : ι ↦ .finished .nothing⟩
        events).calls := by
  have hordered := (lockFreeThreads env (bucketCount shardCount)).timeline_invariant Phase.reply
    Ordered (fun c τ i request h _ _ ↦ h.enter request)
    (fun c τ i h hτ hbusy ↦ h.advance hτ env hbusy)
    (ordered_new .nothing) events
  obtain ⟨own, order, m, -, horder, -, -⟩ := hordered
  exact ⟨order, m, horder⟩

end FluxCache.Store.LockFree
