import FluxCache.Store.TTL

/-!
# The sweep and the readers

Without eviction the keys of the store with deadlines over a map store do not touch each other.
Everything the store has about one key is a `Cell`: its deadline, its string and its hash. A call
acts on the cell of its key and on no other (`actsOn_call`), and a sweep on every cell
(`cell_sweep`).

A sweep empties the cells whose deadline is over. A read finds nothing in such a cell either, so a
reader does not see whether it has been swept: `Hidden` relates a cell that has not been swept to
one that may have been, and every call keeps the relation and gives the same reply (`Hidden.act`).
`Agrees` is the relation between two stores, cell by cell, that a whole run keeps
(`Agrees.replies_eq`). The exception are the calls that write to a cell whose deadline is over. So
sweeps can be inserted anywhere in a run without such calls.
-/

set_option autoImplicit false
set_option relaxedAutoImplicit false

namespace FluxCache.Store

open FluxCache.Foundation

/-! ### Cells -/

/-- What the store has about one key. -/
@[ext] structure Cell where
  deadline : Option Time
  string : Option GoString
  hash : Option (GoMap GoString)

namespace Cell

/-- The cell of a key that is not in the store. -/
def empty : Cell := ⟨none, none, none⟩

/-- The deadline is over. -/
def isOver (now : Time) (cell : Cell) : Bool := cell.deadline.any fun exp ↦ exp < now

theorem isOver_iff {now : Time} {cell : Cell} :
    cell.isOver now = true ↔ ∃ exp, cell.deadline = some exp ∧ exp < now := by
  unfold isOver
  cases cell.deadline with
  | none => simp
  | some exp => simp

/-- The answer to a read that asks the store inside. -/
def answer (cell : Cell) : Read → Reply
  | .get _ => .value (commaOk cell.string)
  | .hget _ key => .value (commaOk (cell.hash.bind fun fields ↦ fields.lookup key))
  | .hgetAll _ => .fields cell.hash

/-- The time that is left, or -2. -/
def left (now : Time) (cell : Cell) : Duration :=
  match cell.deadline with
  | none => -2
  | some exp => if since exp now ≤ 0 then -2 else since exp now

/-- What a call does to a cell at a time, and its reply. -/
def act (now : Time) (cell : Cell) : Call → Reply × Cell
  | .write (.set _ value) => (.nothing, { cell with string := some value })
  | .write (.hset _ key value) =>
    (.nothing, { cell with hash := some ((cell.hash.getD ∅).insert key value) })
  | .setWithTTL _ value ttl =>
    (.nothing, { cell with deadline := some (now + ttl), string := some value })
  | .read r => if cell.isOver now then (r.missing, empty) else (cell.answer r, cell)
  | .del _ => (.nothing, empty)
  | .expire _ ttl =>
    if cell.string.isSome then (.flag true, { cell with deadline := some (now + ttl) })
    else (.flag false, cell)
  | .ttl _ => (.duration (cell.left now), cell)
  | .sweep => (.nothing, if cell.isOver now then empty else cell)

end Cell

/-- The key whose cell a call acts on. A sweep acts on all of them. -/
def Call.key : Call → Option GoString
  | .write w => some w.key
  | .setWithTTL key _ _ => some key
  | .read r => some r.key
  | .del key => some key
  | .expire key _ => some key
  | .ttl key => some key
  | .sweep => none

/-- The key that a call writes to or gives a deadline. -/
def Call.target : Call → Option GoString
  | .write w => some w.key
  | .setWithTTL key _ _ => some key
  | .expire key _ => some key
  | _ => none

/-- The environment in which the clock stands at a time. -/
def atTime (env : Environment) (now : Time) : Environment :=
  { env with now := fun _ ↦ now, monotone_now := monotone_const }

namespace TTLStore

/-- The cell of a key. -/
def cell (t : TTLStore MapStore) (key : GoString) : Cell :=
  ⟨t.expireAt.lookup key, t.inner.strings.lookup key, t.inner.hashes.lookup key⟩

/-! ### The store as a family of cells -/

section Refinement

variable {t : TTLStore MapStore} {key : GoString} {now : Time}

theorem cell_del_self (t : TTLStore MapStore) (key : GoString) : (t.del key).cell key = .empty :=
  Cell.ext (Finmap.lookup_erase ..) (Finmap.lookup_erase ..) (Finmap.lookup_erase ..)

theorem cell_del_of_ne (t : TTLStore MapStore) {key other : GoString} (h : other ≠ key) :
    (t.del key).cell other = t.cell other :=
  Cell.ext (Finmap.lookup_erase_ne h) (Finmap.lookup_erase_ne h) (Finmap.lookup_erase_ne h)

/-- What a call does under the policy that evicts nothing: it acts on the cell of its key and on no
other cell. -/
structure ActsOn (now : Time) (c : Call) (key : GoString) (t : TTLStore MapStore)
    (result : Reply × TTLStore MapStore) : Prop where
  policy : result.2.policy = .noEviction
  reply : result.1 = ((t.cell key).act now c).1
  self : result.2.cell key = ((t.cell key).act now c).2
  others : ∀ other, other ≠ key → result.2.cell other = t.cell other

theorem cell_eq {t t' : TTLStore MapStore} (hexpireAt : t.expireAt = t'.expireAt)
    (hinner : t.inner = t'.inner) (key : GoString) : t.cell key = t'.cell key := by
  rw [cell, cell, hexpireAt, hinner]

theorem actsOn_write (hpolicy : t.policy = .noEviction) (env : Environment) (w : Write) :
    ActsOn now (.write w) w.key t (.nothing, t.write env w) := by
  obtain ⟨hafter, hexpireAt, hinner⟩ := write_noEviction hpolicy env w
  have hcell (key : GoString) : (t.write env w).cell key = (t.writeInner w).cell key :=
    @cell_eq _ (t.writeInner w) hexpireAt hinner key
  cases w with
  | set k value =>
    refine ⟨hafter, rfl, (hcell k).trans ?_, fun other hother ↦ (hcell other).trans ?_⟩
    · exact Cell.ext rfl (Finmap.lookup_insert _) rfl
    · exact Cell.ext rfl (Finmap.lookup_insert_of_ne _ hother) rfl
  | hset h k value =>
    refine ⟨hafter, rfl, (hcell h).trans ?_, fun other hother ↦ (hcell other).trans ?_⟩
    · exact Cell.ext rfl rfl (Finmap.lookup_insert _)
    · exact Cell.ext rfl rfl (Finmap.lookup_insert_of_ne _ hother)

theorem cell_setDeadline_self (env : Environment) (t : TTLStore MapStore) (key : GoString)
    (ttl : Duration) :
    (t.setDeadline env key ttl).cell key =
      { t.cell key with deadline := some (env.now t.requests + ttl) } :=
  Cell.ext (Finmap.lookup_insert _) rfl rfl

theorem cell_setDeadline_of_ne (env : Environment) (t : TTLStore MapStore) {key other : GoString}
    (h : other ≠ key) (ttl : Duration) :
    (t.setDeadline env key ttl).cell other = t.cell other :=
  Cell.ext (Finmap.lookup_insert_of_ne _ h) rfl rfl

theorem actsOn_setWithTTL (hpolicy : t.policy = .noEviction) (env : Environment)
    (key value : GoString) (ttl : Duration) :
    ActsOn (env.now t.requests) (.setWithTTL key value ttl) key t
      (.nothing, t.setWithTTL env key value ttl) := by
  obtain ⟨hafter, -, hself, hothers⟩ := @actsOn_write (t.setDeadline env key ttl)
    (env.now t.requests) hpolicy env (.set key value)
  refine ⟨hafter, rfl, hself.trans ?_, fun other hother ↦ (hothers other hother).trans ?_⟩
  · exact congrArg (fun cell : Cell ↦ { cell with string := some value })
      (cell_setDeadline_self env t key ttl)
  · exact cell_setDeadline_of_ne _ t hother ttl

theorem actsOn_del (hpolicy : t.policy = .noEviction) (key : GoString) :
    ActsOn now (.del key) key t (.nothing, t.del key) where
  policy := by
    show t.policy.delete key = _
    rw [hpolicy]
    rfl
  reply := rfl
  self := cell_del_self t key
  others := fun _ hother ↦ cell_del_of_ne t hother

theorem answer_eq (t : TTLStore MapStore) (r : Read) :
    r.answer t.inner = (t.cell r.key).answer r := by
  cases r with
  | get key => rfl
  | hget hash key => rfl
  | hgetAll hash => rfl

theorem isPast_eq (env : Environment) (t : TTLStore MapStore) (key : GoString) :
    ∃ requests, t.isPast env (t.expireAt.lookup key) =
      ((t.cell key).isOver (env.now t.requests), { t with requests := requests }) := by
  unfold cell Cell.isOver
  cases t.expireAt.lookup key with
  | none => exact ⟨t.requests, rfl⟩
  | some exp => exact ⟨t.requests + 1, rfl⟩

theorem actsOn_read (hpolicy : t.policy = .noEviction) (env : Environment) (r : Read) :
    ActsOn (env.now t.requests) (.read r) r.key t (t.read env r) := by
  obtain ⟨requests, hpast⟩ := isPast_eq env t r.key
  unfold TTLStore.read
  rw [hpast]
  dsimp only
  by_cases hover : (t.cell r.key).isOver (env.now t.requests) = true
  · have hact : (t.cell r.key).act (env.now t.requests) (.read r) = (r.missing, .empty) :=
      if_pos hover
    obtain ⟨hafter, -, hself, hothers⟩ :=
      @actsOn_del { t with requests := requests } (env.now t.requests) hpolicy r.key
    rw [if_pos hover]
    exact ⟨hafter, by rw [hact], by rw [hact]; exact hself, hothers⟩
  · have hact : (t.cell r.key).act (env.now t.requests) (.read r) =
        ((t.cell r.key).answer r, t.cell r.key) := if_neg hover
    rw [if_neg hover]
    refine ⟨?_, by rw [hact]; exact answer_eq t r, by rw [hact]; rfl, fun _ _ ↦ rfl⟩
    show t.policy.record _ _ = _
    rw [hpolicy]
    rfl

theorem actsOn_expire (hpolicy : t.policy = .noEviction) (env : Environment) (key : GoString)
    (ttl : Duration) :
    ActsOn (env.now t.requests) (.expire key ttl) key t
      ((t.expire env key ttl).map .flag id) := by
  have hfound : (StoreInterface.get t.inner key).2 = (t.cell key).string.isSome := by
    show (commaOk (t.inner.strings.lookup key)).2 = (t.inner.strings.lookup key).isSome
    cases t.inner.strings.lookup key <;> rfl
  unfold TTLStore.expire
  rw [hfound]
  by_cases hsome : (t.cell key).string.isSome = true
  · have hact : (t.cell key).act (env.now t.requests) (.expire key ttl) =
        (.flag true, { t.cell key with deadline := some (env.now t.requests + ttl) }) :=
      if_pos hsome
    rw [if_pos hsome]
    refine ⟨hpolicy, by rw [hact]; rfl, ?_, fun other hother ↦ ?_⟩
    · rw [hact]
      exact cell_setDeadline_self env t key ttl
    · exact cell_setDeadline_of_ne _ t hother ttl
  · have hact : (t.cell key).act (env.now t.requests) (.expire key ttl) =
        (.flag false, t.cell key) := if_neg hsome
    rw [if_neg hsome]
    exact ⟨hpolicy, by rw [hact]; rfl, by rw [hact]; rfl, fun _ _ ↦ rfl⟩

theorem actsOn_ttl (hpolicy : t.policy = .noEviction) (env : Environment) (key : GoString) :
    ActsOn (env.now t.requests) (.ttl key) key t ((t.ttl env key).map .duration id) := by
  have hleft : ∃ requests, t.ttl env key =
      ((t.cell key).left (env.now t.requests), { t with requests := requests }) := by
    unfold TTLStore.ttl cell Cell.left
    cases t.expireAt.lookup key with
    | none => exact ⟨t.requests, rfl⟩
    | some exp => exact ⟨t.requests + 1, rfl⟩
  obtain ⟨requests, hleft⟩ := hleft
  rw [hleft]
  exact ⟨hpolicy, rfl, rfl, fun _ _ ↦ rfl⟩

/-- Every call but a sweep acts on the cell of its key, at the time of its first reading of the
clock. -/
theorem actsOn_call (hpolicy : t.policy = .noEviction) (env : Environment) {c : Call}
    {key : GoString} (hkey : c.key = some key) :
    ActsOn (env.now t.requests) c key t (t.call env c) := by
  cases c with
  | write w =>
    obtain rfl := Option.some.inj hkey
    cases w with
    | set k value => exact actsOn_write hpolicy _ (.set k value)
    | hset h k value => exact actsOn_write hpolicy _ (.hset h k value)
  | setWithTTL k value ttl =>
    obtain rfl := Option.some.inj hkey
    exact actsOn_setWithTTL hpolicy env k value ttl
  | read r =>
    obtain rfl := Option.some.inj hkey
    cases r with
    | get k => exact actsOn_read hpolicy env (.get k)
    | hget h k => exact actsOn_read hpolicy env (.hget h k)
    | hgetAll h => exact actsOn_read hpolicy env (.hgetAll h)
  | del k =>
    obtain rfl := Option.some.inj hkey
    exact actsOn_del hpolicy k
  | expire k ttl =>
    obtain rfl := Option.some.inj hkey
    exact actsOn_expire hpolicy env k ttl
  | ttl k =>
    obtain rfl := Option.some.inj hkey
    exact actsOn_ttl hpolicy env k
  | sweep => exact absurd hkey nofun

/-! #### The sweep -/

theorem mem_expiredKeys_iff (env : Environment) (t : TTLStore MapStore) :
    key ∈ t.expiredKeys env ↔ (t.cell key).isOver (env.now t.requests) = true := by
  refine (List.mem_filter).trans (and_iff_right_of_imp fun hover ↦ ?_)
  rw [env.mem_order, Finmap.mem_keys, ← Finmap.lookup_isSome]
  cases hlookup : t.expireAt.lookup key with
  | none =>
    rw [hlookup] at hover
    exact absurd hover nofun
  | some exp => rfl

/-- A loop over keys that changes the cell of each key by the same rule. -/
theorem cell_foldl {step : TTLStore MapStore → GoString → TTLStore MapStore} {rule : Cell → Cell}
    (hself : ∀ t key, (step t key).cell key = rule (t.cell key))
    (hother : ∀ t key other, other ≠ key → (step t key).cell other = t.cell other)
    (hrule : ∀ cell, rule (rule cell) = rule cell) (keys : List GoString)
    (t : TTLStore MapStore) :
    (keys.foldl step t).cell key = if key ∈ keys then rule (t.cell key) else t.cell key := by
  induction keys generalizing t with
  | nil => rfl
  | cons first keys ih =>
    rw [List.foldl_cons, ih]
    by_cases hfirst : key = first
    · subst hfirst
      rw [hself, hrule, ite_self, if_pos List.mem_cons_self]
    · rw [hother t first key hfirst]
      refine if_congr ?_ rfl rfl
      rw [List.mem_cons, or_iff_right hfirst]

/-- A sweep empties the cells whose deadline is over. -/
theorem cell_sweep (env : Environment) (t : TTLStore MapStore) (key : GoString) :
    (t.sweep env).cell key = ((t.cell key).act (env.now t.requests) .sweep).2 := by
  have hremove := @cell_foldl key removeKey (fun cell ↦ { cell with deadline := none })
    (fun t key ↦ Cell.ext (Finmap.lookup_erase key t.expireAt) rfl rfl)
    (fun t key other h ↦ Cell.ext (Finmap.lookup_erase_ne h) rfl rfl) (fun _ ↦ rfl)
    (t.expiredKeys env) t
  have hdrop := @cell_foldl key dropExpired (fun cell ↦ { cell with string := none, hash := none })
    (fun t key ↦ Cell.ext rfl (Finmap.lookup_erase key _) (Finmap.lookup_erase key _))
    (fun t key other h ↦ Cell.ext rfl (Finmap.lookup_erase_ne h) (Finmap.lookup_erase_ne h))
    (fun _ ↦ rfl) (t.expiredKeys env) (t.collectExpired env).2
  have hcollected : (t.collectExpired env).2.cell key =
      ((t.expiredKeys env).foldl removeKey t).cell key := rfl
  refine hdrop.trans ?_
  rw [hcollected, hremove]
  show _ = if (t.cell key).isOver (env.now t.requests) then Cell.empty else t.cell key
  by_cases hover : (t.cell key).isOver (env.now t.requests) = true
  · have hmem := (mem_expiredKeys_iff env t).mpr hover
    rw [if_pos hmem, if_pos hmem, if_pos hover]
    rfl
  · have hmem := mt (mem_expiredKeys_iff env t).mp hover
    rw [if_neg hmem, if_neg hmem, if_neg hover]

theorem policy_sweep (hpolicy : t.policy = .noEviction) (env : Environment) :
    (t.sweep env).policy = .noEviction := by
  refine sweep_induction env (motive := fun t ↦ t.policy = .noEviction) hpolicy (fun _ _ h ↦ h)
    (fun _ _ h ↦ h) fun t key h ↦ ?_
  show t.policy.delete key = _
  rw [h]
  rfl

end Refinement

end TTLStore

/-! ### Cells that may have been swept -/

/-- The second cell is the first one, or the deadline of the first one is over and the second one
has been swept. -/
def Hidden (now : Time) (cell swept : Cell) : Prop :=
  cell = swept ∨ cell.isOver now = true ∧ swept = .empty

namespace Hidden

variable {now later : Time} {cell swept : Cell}

theorem mono (h : Hidden now cell swept) (hle : now ≤ later) : Hidden later cell swept := by
  refine h.imp_right (And.imp_left fun hover ↦ ?_)
  obtain ⟨exp, hexp, hlt⟩ := Cell.isOver_iff.mp hover
  exact Cell.isOver_iff.mpr ⟨exp, hexp, hlt.trans_le hle⟩

/-- A sweep of the second cell. -/
theorem sweep (h : Hidden now cell swept) : Hidden now cell (swept.act now .sweep).2 := by
  show Hidden now cell (if swept.isOver now then Cell.empty else swept)
  rcases h with rfl | ⟨hover, rfl⟩
  · by_cases hover : cell.isOver now = true
    · rw [if_pos hover]
      exact Or.inr ⟨hover, rfl⟩
    · rw [if_neg hover]
      exact Or.inl rfl
  · exact Or.inr ⟨hover, ite_self _⟩

theorem left_of_isOver (hover : cell.isOver now = true) : cell.left now = -2 := by
  obtain ⟨exp, hexp, hlt⟩ := Cell.isOver_iff.mp hover
  rw [Cell.left, hexp]
  exact if_pos (since_nonpos (le_of_lt hlt))

/-- Every call gives the same reply on both cells and keeps the relation, unless it writes to a cell
whose deadline is over. -/
theorem act (h : Hidden now cell swept) {c : Call}
    (hlive : c.target ≠ none → cell.isOver now ≠ true) :
    (cell.act now c).1 = (swept.act now c).1 ∧
      Hidden now (cell.act now c).2 (swept.act now c).2 := by
  rcases h with rfl | ⟨hover, rfl⟩
  · exact ⟨rfl, Or.inl rfl⟩
  · cases c with
    | write w => exact absurd hover (hlive nofun)
    | setWithTTL key value ttl => exact absurd hover (hlive nofun)
    | expire key ttl => exact absurd hover (hlive nofun)
    | read r =>
      have hact : cell.act now (.read r) = (r.missing, .empty) := if_pos hover
      rw [hact]
      refine ⟨?_, Or.inl rfl⟩
      cases r with
      | get key => rfl
      | hget hash key => rfl
      | hgetAll hash => rfl
    | del key => exact ⟨rfl, Or.inl rfl⟩
    | ttl key => exact ⟨congrArg Reply.duration (left_of_isOver hover), Or.inr ⟨hover, rfl⟩⟩
    | sweep =>
      refine ⟨rfl, Or.inl ?_⟩
      exact if_pos hover

end Hidden

/-! ### Runs with and without sweeps -/

namespace TTLStore

/-- A call with the time of its reading of the clock. -/
abbrev TimedCall := Time × Call

/-- The replies of a run to all calls but the sweeps. -/
def replies (env : Environment) (t : TTLStore MapStore) : List TimedCall → List Reply
  | [] => []
  | (now, .sweep) :: calls => replies env (t.call (atTime env now) .sweep).2 calls
  | (now, c) :: calls =>
    (t.call (atTime env now) c).1 :: replies env (t.call (atTime env now) c).2 calls

/-- No call of a run writes to a key whose deadline is over, or gives such a key a deadline. -/
def Live (env : Environment) (t : TTLStore MapStore) : List TimedCall → Prop
  | [] => True
  | (now, c) :: calls =>
    (∀ key ∈ c.target, ∀ exp ∈ t.expireAt.lookup key, ¬ exp < now) ∧
      Live env (t.call (atTime env now) c).2 calls

/-- The run without its sweeps. -/
def unswept (calls : List TimedCall) : List TimedCall :=
  calls.filter fun timed ↦ timed.2 ≠ .sweep

theorem replies_cons (env : Environment) (t : TTLStore MapStore) (now : Time) {c : Call}
    (hc : c ≠ .sweep) (calls : List TimedCall) :
    replies env t ((now, c) :: calls) =
      (t.call (atTime env now) c).1 :: replies env (t.call (atTime env now) c).2 calls := by
  cases c <;> first | rfl | exact absurd rfl hc

theorem exists_key {c : Call} (hc : c ≠ .sweep) : ∃ key, c.key = some key := by
  cases c with
  | sweep => exact absurd rfl hc
  | _ => exact ⟨_, rfl⟩

theorem target_eq_key {c : Call} (htarget : c.target ≠ none) : c.target = c.key := by
  cases c <;> first | rfl | exact absurd rfl htarget

/-- Two stores that evict nothing and agree up to cells that may have been swept in the second. -/
structure Agrees (now : Time) (t swept : TTLStore MapStore) : Prop where
  policy : t.policy = .noEviction
  sweptPolicy : swept.policy = .noEviction
  hidden : ∀ key, Hidden now (t.cell key) (swept.cell key)

namespace Agrees

variable {now later : Time} {t swept : TTLStore MapStore}

theorem mono (h : Agrees now t swept) (hle : now ≤ later) : Agrees later t swept :=
  ⟨h.policy, h.sweptPolicy, fun key ↦ (h.hidden key).mono hle⟩

/-- A sweep of the second store. -/
theorem sweep (h : Agrees now t swept) (env : Environment) :
    Agrees now t (swept.sweep (atTime env now)) := by
  refine ⟨h.policy, policy_sweep h.sweptPolicy _, fun key ↦ ?_⟩
  rw [cell_sweep]
  exact (h.hidden key).sweep

/-- Any other call gives the same reply on both stores, unless it writes to a key whose deadline is
over. -/
theorem call (h : Agrees now t swept) (env env' : Environment) {c : Call} (hc : c ≠ .sweep)
    (hlive : ∀ key ∈ c.target, ∀ exp ∈ t.expireAt.lookup key, ¬ exp < now) :
    (t.call (atTime env now) c).1 = (swept.call (atTime env' now) c).1 ∧
      Agrees now (t.call (atTime env now) c).2 (swept.call (atTime env' now) c).2 := by
  obtain ⟨key, hkey⟩ := exists_key hc
  have hbase : ActsOn now c key t _ := actsOn_call h.policy (atTime env now) hkey
  have hother : ActsOn now c key swept _ := actsOn_call h.sweptPolicy (atTime env' now) hkey
  have hwrites : c.target ≠ none → (t.cell key).isOver now ≠ true := by
    intro htarget hover
    obtain ⟨exp, hexp, hlt⟩ := Cell.isOver_iff.mp hover
    exact hlive key ((target_eq_key htarget).trans hkey) exp hexp hlt
  obtain ⟨hreply, hafter⟩ := (h.hidden key).act hwrites
  refine ⟨by rw [hbase.reply, hother.reply, hreply], hbase.policy, hother.policy, fun k ↦ ?_⟩
  by_cases hk : k = key
  · rw [hk, hbase.self, hother.self]
    exact hafter
  · rw [hbase.others k hk, hother.others k hk]
    exact h.hidden k

/-- A run with sweeps and a run without them, from stores that agree up to swept cells. -/
theorem replies_eq (env env' : Environment) {calls : List TimedCall} (h : Agrees now t swept)
    (hclock : ∀ timed ∈ calls, now ≤ timed.1)
    (hmono : calls.Pairwise fun first second ↦ first.1 ≤ second.1)
    (hlive : Live env t (unswept calls)) :
    replies env' swept calls = replies env t (unswept calls) := by
  induction calls generalizing now t swept with
  | nil => rfl
  | cons timed calls ih =>
    obtain ⟨time, c⟩ := timed
    obtain ⟨hlater, hrest⟩ := List.pairwise_cons.mp hmono
    have hnow := h.mono (hclock (time, c) List.mem_cons_self)
    by_cases hc : c = .sweep
    · subst hc
      exact ih (hnow.sweep env') hlater hrest hlive
    · have hfilter : unswept ((time, c) :: calls) = (time, c) :: unswept calls :=
        List.filter_cons_of_pos (decide_eq_true hc)
      rw [hfilter] at hlive ⊢
      obtain ⟨hreply, hafter⟩ := hnow.call env env' hc hlive.1
      rw [replies_cons env t time hc, replies_cons env' swept time hc, hreply]
      exact congrArg _ (ih hafter hlater hrest hlive.2)

end Agrees

/-- Removing the sweeps from a run changes no reply, whatever the orders of the iterations are in
the two runs. Assumes: nothing is evicted, the times of the run do not go back, and in the run
without the sweeps no call writes to a key whose deadline is over or gives such a key a deadline. -/
theorem sweep_invisible (env env' : Environment) {t : TTLStore MapStore}
    (hpolicy : t.policy = .noEviction) {calls : List TimedCall}
    (hclock : calls.Pairwise fun first second ↦ first.1 ≤ second.1)
    (hlive : Live env t (unswept calls)) :
    replies env' t calls = replies env t (unswept calls) := by
  cases calls with
  | nil => rfl
  | cons timed calls =>
    have hstart : ∀ later ∈ timed :: calls, timed.1 ≤ later.1 :=
      List.forall_mem_cons.mpr ⟨le_refl _, (List.pairwise_cons.mp hclock).1⟩
    have hsame : Agrees timed.1 t t := ⟨hpolicy, hpolicy, fun _ ↦ Or.inl rfl⟩
    exact hsame.replies_eq env env' hstart hclock hlive

/-- A key that expires between two sweeps. -/
theorem sweep_invisible_get :
    replies stillClock (TTLStore.new MapStore.new)
        [(0, .setWithTTL (text "k") (text "v") 10), (5, .sweep), (11, .sweep),
          (12, .read (.get (text "k")))] =
      replies stillClock (TTLStore.new MapStore.new)
        [(0, .setWithTTL (text "k") (text "v") 10), (12, .read (.get (text "k")))] := by
  refine sweep_invisible stillClock stillClock rfl (by decide) ⟨?_, ?_, trivial⟩
  · intro key _ exp hexp
    exact absurd hexp (by simp [TTLStore.new])
  · intro key hkey
    exact absurd hkey nofun

end TTLStore

end FluxCache.Store
