import FluxCache.Foundation.Linearizability
import FluxCache.Store.SyncMap

/-!
# The calls on one hash

An `HSet` that has the map of its hash may store its field there after a `Del` has taken the map out
of the store, and possibly after another `HSet` has put a new map in its place; an `HGet` may look
into such a map as well. None of these calls has a fixed step at which it takes effect. But each of
them was entered before the `Del` that took its map away returned, so it may be placed directly in
front of that `Del`.

So the calls on one hash are kept in a `Ledger`: for every map that the hash has had, the calls on
that map and the `Del` that closed it, and between the maps the calls that found none. A call on a
map that is closed joins the calls on that map, wherever the hash has got to in the meantime
(`Ledger.record`, `Ledger.order_record`). `Kept` says that the ledger is one order of all calls on
the hash which the map store explains, and the rules for it say what happens to the ledger when a
call returns.
-/

set_option autoImplicit false
set_option relaxedAutoImplicit false

namespace FluxCache.Store.SyncMapStore

open FluxCache.Foundation LockFree

/-! ### One hash as an object -/

/-- The calls that concern a hash: `HSet` and `HGet` on it, and `Del` of its key. -/
def concerns (h : GoString) : Request → Bool
  | .update (.write (.hset hash _ _)) => hash = h
  | .update (.del key) => key = h
  | .read (.hget hash _) => hash = h
  | _ => false

/-- The map store with the fields of one hash. -/
def holding (h : GoString) (fields : GoMap GoString) : MapStore :=
  if fields = ∅ then .new else ⟨∅, Finmap.singleton h fields⟩

section Holding

variable {h key value : GoString} {fields : GoMap GoString}

theorem holding_empty : holding h ∅ = .new := if_pos rfl

theorem lookup_holding :
    (holding h fields).hashes.lookup h = if fields = ∅ then none else some fields := by
  unfold holding
  by_cases hfields : fields = ∅
  · rw [if_pos hfields, if_pos hfields]
    rfl
  · rw [if_neg hfields, if_neg hfields]
    exact Finmap.lookup_singleton_eq

theorem serve_hset :
    (holding h fields).serve (.update (.write (.hset h key value))) =
      (.nothing, holding h (fields.insert key value)) := by
  have hne : fields.insert key value ≠ ∅ := by
    intro hempty
    have hlookup := Finmap.lookup_insert (a := key) (b := value) fields
    rw [hempty] at hlookup
    exact absurd hlookup (by simp)
  have hholding : holding h (fields.insert key value) =
    ⟨∅, Finmap.singleton h (fields.insert key value)⟩ := if_neg hne
  rw [hholding]
  refine congrArg (Prod.mk Reply.nothing) (MapStore.ext ?_ (Finmap.ext_lookup fun other ↦ ?_))
  · show (holding h fields).strings = ∅
    unfold holding
    split <;> rfl
  · show (hashSet (holding h fields).hashes h key value).lookup other = _
    by_cases hother : other = h
    · rw [hother, hashSet, Finmap.lookup_insert, Finmap.lookup_singleton_eq, lookup_holding]
      by_cases hfields : fields = ∅
      · rw [if_pos hfields, hfields]
        rfl
      · rw [if_neg hfields]
        rfl
    · rw [hashSet, Finmap.lookup_insert_of_ne _ hother]
      have hnone {fields : GoMap GoString} : (Finmap.singleton h fields : Hashes).lookup other =
          none := Finmap.lookup_eq_none.mpr fun hmem ↦ hother ((Finmap.mem_singleton ..).mp hmem)
      rw [hnone, holding]
      split
      · rfl
      · exact hnone

theorem serve_del :
    (holding h fields).serve (.update (.del h)) = (.nothing, .new) := by
  refine congrArg (Prod.mk Reply.nothing) ?_
  show (holding h fields).del h = .new
  unfold holding
  by_cases hfields : fields = ∅
  · rw [if_pos hfields]
    rfl
  · rw [if_neg hfields]
    refine MapStore.ext rfl (Finmap.ext_lookup fun other ↦ ?_)
    show ((Finmap.singleton h fields : Hashes).erase h).lookup other = none
    rw [Finmap.lookup_eq_none, Finmap.mem_erase, Finmap.mem_singleton]
    exact fun hmem ↦ hmem.1 hmem.2

theorem serve_hget :
    (holding h fields).serve (.read (.hget h key)) =
      (.value (commaOk (fields.lookup key)), holding h fields) := by
  refine congrArg (fun found ↦ (Reply.value (commaOk found), holding h fields)) ?_
  show ((holding h fields).hashes.lookup h).bind (fun fields ↦ fields.lookup key) = _
  rw [lookup_holding]
  by_cases hfields : fields = ∅
  · rw [if_pos hfields, hfields]
    rfl
  · rw [if_neg hfields]
    rfl

end Holding

/-! ### The ledger of a hash -/

/-- A map that the hash has had: the calls that found no map before it, the calls on it and the
`Del` that took it away. -/
structure Epoch where
  gap : List (Completed Request Reply)
  table : Pointer
  calls : List (Completed Request Reply)
  closing : Completed Request Reply

namespace Epoch

/-- The calls of an epoch, in their order. -/
def order (e : Epoch) : List (Completed Request Reply) := e.gap ++ e.calls ++ [e.closing]

/-- The epoch with a call on a map. -/
def record (e : Epoch) (p : Pointer) (c : Completed Request Reply) : Epoch :=
  if e.table = p then { e with calls := e.calls ++ [c] } else e

variable {e : Epoch} {p : Pointer} {c : Completed Request Reply}

@[simp] theorem table_record : (e.record p c).table = e.table := by
  unfold record
  split <;> rfl

@[simp] theorem gap_record : (e.record p c).gap = e.gap := by
  unfold record
  split <;> rfl

@[simp] theorem closing_record : (e.record p c).closing = e.closing := by
  unfold record
  split <;> rfl

theorem record_of_ne (h : e.table ≠ p) : e.record p c = e := if_neg h

/-- The calls of the epoch are the old ones and possibly the new one. -/
theorem mem_order_record {b : Completed Request Reply} (hb : b ∈ (e.record p c).order) :
    b ∈ e.order ∨ b = c := by
  by_cases htable : e.table = p
  · rw [record, if_pos htable] at hb
    simp only [order, List.mem_append, List.mem_singleton] at hb ⊢
    tauto
  · rw [record_of_ne htable] at hb
    exact Or.inl hb

end Epoch

/-- The calls on a hash: those on maps that were taken away, those that have found no map since
then, and those on the map that the hash has now. -/
structure Ledger where
  closed : List Epoch
  gap : List (Completed Request Reply)
  current : Option (Pointer × List (Completed Request Reply))

namespace Ledger

/-- One order of all calls. -/
def order (g : Ledger) : List (Completed Request Reply) :=
  g.closed.flatMap Epoch.order ++ g.gap ++ g.current.elim [] Prod.snd

/-- The maps that the hash has had. -/
def tables (g : Ledger) : List Pointer := g.closed.map Epoch.table ++ g.current.toList.map Prod.fst

/-- A call that finds no map. -/
def addGap (g : Ledger) (c : Completed Request Reply) : Ledger := { g with gap := g.gap ++ [c] }

/-- The hash gets a map. -/
def attach (g : Ledger) (p : Pointer) : Ledger := { g with current := some (p, []) }

/-- The map of the hash is taken away. -/
def close (g : Ledger) (p : Pointer) (calls : List (Completed Request Reply))
    (c : Completed Request Reply) : Ledger :=
  ⟨g.closed ++ [⟨g.gap, p, calls, c⟩], [], none⟩

/-- A call on a map, which the hash may have or have had. -/
def record (g : Ledger) (p : Pointer) (c : Completed Request Reply) : Ledger where
  closed := g.closed.map fun e ↦ e.record p c
  gap := g.gap
  current := g.current.map fun now ↦ if now.1 = p then (now.1, now.2 ++ [c]) else now

/-- The map of a call that was entered at some time is in use, or was taken away after that time. -/
def Held (g : Ledger) (p : Pointer) (entered : ℕ) : Prop :=
  (∃ calls, g.current = some (p, calls)) ∨
    ∃ e ∈ g.closed, e.table = p ∧ entered ≤ e.closing.returned

section Held

variable {g : Ledger} {p q : Pointer} {entered : ℕ} {c : Completed Request Reply}

theorem Held.addGap (h : g.Held p entered) : (g.addGap c).Held p entered := h

theorem Held.attach (h : g.Held p entered) (hnone : g.current = none) :
    (g.attach q).Held p entered := by
  rcases h with ⟨calls, hcurrent⟩ | hclosed
  · exact absurd (hnone.symm.trans hcurrent) (by simp)
  · exact Or.inr hclosed

theorem Held.close {calls : List (Completed Request Reply)} (h : g.Held p entered)
    (hcurrent : g.current = some (q, calls)) (hnow : entered ≤ c.returned) :
    (g.close q calls c).Held p entered := by
  refine Or.inr ?_
  rcases h with ⟨calls', hcurrent'⟩ | ⟨e, he, hheld⟩
  · obtain ⟨rfl, rfl⟩ := Prod.mk.inj (Option.some.inj (hcurrent.symm.trans hcurrent'))
    exact ⟨_, List.mem_append_right _ List.mem_cons_self, rfl, hnow⟩
  · exact ⟨e, List.mem_append_left _ he, hheld⟩

theorem Held.record (h : g.Held p entered) : (g.record q c).Held p entered := by
  rcases h with ⟨calls, hcurrent⟩ | ⟨e, he, rfl, hle⟩
  · refine Or.inl ?_
    by_cases hq : p = q
    · exact ⟨calls ++ [c], by simp [Ledger.record, hcurrent, hq]⟩
    · exact ⟨calls, by simp [Ledger.record, hcurrent, hq]⟩
  · exact Or.inr ⟨e.record q c, List.mem_map_of_mem he, Epoch.table_record, by
      rwa [Epoch.closing_record]⟩

@[simp] theorem tables_record : (g.record p c).tables = g.tables := by
  have hclosed : (g.closed.map fun e ↦ e.record p c).map Epoch.table =
      g.closed.map Epoch.table := by
    rw [List.map_map]
    exact List.map_congr_left fun e _ ↦ Epoch.table_record
  have hcurrent : (g.record p c).current.toList.map Prod.fst =
      g.current.toList.map Prod.fst := by
    cases hcurrent : g.current with
    | none => simp [Ledger.record, hcurrent]
    | some now =>
      by_cases hnow : now.1 = p
      · simp [Ledger.record, hcurrent, hnow]
      · simp [Ledger.record, hcurrent, hnow]
  rw [tables, tables, hcurrent]
  exact congrArg (· ++ _) hclosed

/-- A call on a map is one more call in the order, and what comes behind it belongs to the `Del`
that took the map away or comes behind that. -/
theorem order_record (hnodup : g.tables.Nodup) (hheld : g.Held p entered) :
    ∃ before after, g.order = before ++ after ∧ (g.record p c).order = before ++ c :: after ∧
      (after = [] ∨ ∃ front e back, g.closed = front ++ e :: back ∧
        entered ≤ e.closing.returned ∧
        after =
          e.closing :: (back.flatMap Epoch.order ++ g.gap ++ g.current.elim [] Prod.snd)) := by
  have hsame (epochs : List Epoch) (h : p ∉ epochs.map Epoch.table) :
      epochs.map (fun e ↦ e.record p c) = epochs := by
    refine (List.map_congr_left fun e he ↦ ?_).trans (List.map_id epochs)
    exact Epoch.record_of_ne fun htable ↦ h (htable ▸ List.mem_map_of_mem he)
  rcases hheld with ⟨calls, hcurrent⟩ | ⟨e, he, rfl, hle⟩
  · -- the map of the hash: the call goes to the end
    rw [tables, hcurrent, Option.toList_some] at hnodup
    have hp : p ∉ g.closed.map Epoch.table := fun hmem ↦
      List.disjoint_of_nodup_append hnodup hmem List.mem_cons_self
    refine ⟨g.order, [], (List.append_nil _).symm, ?_, Or.inl rfl⟩
    rw [order, order, Ledger.record, hcurrent]
    simp only [Option.map_some, if_true, Option.elim_some, hsame _ hp, List.append_assoc]
  · -- a map that was taken away: the call goes in front of the `Del`
    obtain ⟨front, back, hclosed⟩ := List.append_of_mem he
    rw [tables, hclosed, List.map_append, List.map_cons, List.append_assoc] at hnodup
    have hdisjoint := List.disjoint_of_nodup_append hnodup
    have hrest := List.nodup_cons.mp (List.Nodup.of_append_right hnodup)
    have hfront : e.table ∉ front.map Epoch.table := fun hmem ↦ hdisjoint hmem List.mem_cons_self
    have hback : e.table ∉ back.map Epoch.table :=
      fun hmem ↦ hrest.1 (List.mem_append_left _ hmem)
    have hcurrent : (g.record e.table c).current = g.current := by
      cases hcurrent : g.current with
      | none => simp [Ledger.record, hcurrent]
      | some now =>
        have hnow : now.1 ≠ e.table := by
          intro htable
          refine hrest.1 (List.mem_append_right _ ?_)
          rw [hcurrent, ← htable]
          exact List.mem_cons_self
        simp [Ledger.record, hcurrent, hnow]
    have hrecord : (g.record e.table c).closed =
        front ++ { e with calls := e.calls ++ [c] } :: back := by
      show g.closed.map (fun e' ↦ e'.record e.table c) = _
      rw [hclosed, List.map_append, List.map_cons, hsame _ hfront, hsame _ hback, Epoch.record,
        if_pos rfl]
    refine ⟨front.flatMap Epoch.order ++ (e.gap ++ e.calls),
      e.closing :: (back.flatMap Epoch.order ++ g.gap ++ g.current.elim [] Prod.snd), ?_, ?_,
      Or.inr ⟨front, e, back, hclosed, hle, rfl⟩⟩
    · rw [order, hclosed]
      simp [Epoch.order]
    · rw [order, hrecord, hcurrent, show (g.record e.table c).gap = g.gap from rfl]
      simp [Epoch.order]

end Held

end Ledger

/-! ### What the ledger keeps -/

/-- What is known of an epoch. -/
structure EpochKept (h : GoString) (s : SyncMapStore) (owner : Pointer → GoString) (e : Epoch) :
    Prop where
  lt_used : e.table < s.maps.used
  owner_eq : owner e.table = h
  gap : Explains MapStore.serve .new e.gap .new
  calls : Explains MapStore.serve .new e.calls (holding h (s.maps.cell e.table))
  closing : e.closing.call = .update (.del h) ∧ e.closing.reply = .nothing

theorem EpochKept.explains {h : GoString} {s : SyncMapStore} {owner : Pointer → GoString}
    {e : Epoch} (he : EpochKept h s owner e) : Explains MapStore.serve .new e.order .new := by
  refine (he.gap.append he.calls).concat ?_
  rw [he.closing.1, he.closing.2]
  exact serve_del

/-- The ledger of a hash is an order of the calls on it that the map store explains; the maps of its
epochs hold what the calls on them have left there. -/
structure Kept (h : GoString) (s : SyncMapStore) (owner : Pointer → GoString)
    (calls : List (Completed Request Reply)) (g : Ledger) : Prop where
  linear : ∃ final, Linearizes MapStore.serve .new (calls.filter fun c ↦ concerns h c.call)
    g.order final
  closed : ∀ e ∈ g.closed, EpochKept h s owner e
  gap : Explains MapStore.serve .new g.gap .new
  current : s.hashes.lookup h = g.current.map Prod.fst
  calls : ∀ p cs, g.current = some (p, cs) →
    Explains MapStore.serve .new cs (holding h (s.maps.cell p))
  nodup : g.tables.Nodup
  later : g.closed.Pairwise fun e e' ↦ ∀ b ∈ e'.order, e.closing.returned ≤ b.returned
  last : ∀ e ∈ g.closed, ∀ b ∈ g.gap ++ g.current.elim [] Prod.snd,
    e.closing.returned ≤ b.returned

section Kept

variable {h : GoString} {s s' : SyncMapStore} {owner owner' : Pointer → GoString}
  {calls : List (Completed Request Reply)} {g : Ledger} {c : Completed Request Reply}
  {p : Pointer}

/-- The parts of a ledger are explained one after another. -/
theorem explains_order (hclosed : ∀ e ∈ g.closed, EpochKept h s owner e)
    (hgap : Explains MapStore.serve .new g.gap .new)
    (hcalls : ∀ p cs, g.current = some (p, cs) →
      Explains MapStore.serve .new cs (holding h (s.maps.cell p))) :
    ∃ final, Explains MapStore.serve .new g.order final := by
  have hepochs : ∀ epochs : List Epoch, (∀ e ∈ epochs, EpochKept h s owner e) →
      Explains MapStore.serve .new (epochs.flatMap Epoch.order) .new := by
    intro epochs hepochs
    induction epochs with
    | nil => rfl
    | cons e epochs ih =>
      rw [List.flatMap_cons]
      exact (hepochs e List.mem_cons_self).explains.append
        (ih fun e' he' ↦ hepochs e' (List.mem_cons_of_mem _ he'))
  have hfirst := (hepochs g.closed hclosed).append hgap
  rw [Ledger.order]
  cases hcurrent : g.current with
  | none => exact ⟨_, hfirst.append rfl⟩
  | some now => exact ⟨_, hfirst.append (hcalls now.1 now.2 hcurrent)⟩

theorem Kept.mem_calls (hg : Kept h s owner calls g) {b : Completed Request Reply}
    (hb : b ∈ g.order) : b ∈ calls := by
  obtain ⟨final, hlinear⟩ := hg.linear
  exact List.mem_of_mem_filter (hlinear.perm.subset hb)

theorem Kept.closing_mem (hg : Kept h s owner calls g) {e : Epoch} (he : e ∈ g.closed) :
    e.closing ∈ calls := by
  refine hg.mem_calls (List.mem_append_left _ (List.mem_append_left _ ?_))
  exact List.mem_flatMap.mpr ⟨e, he, List.mem_append_right _ List.mem_cons_self⟩

/-- A step that leaves the maps of the hash as they are. -/
theorem Kept.frame (hg : Kept h s owner calls g) (howned : Owned s owner)
    (hlookup : s'.hashes.lookup h = s.hashes.lookup h) (hused : s.maps.used ≤ s'.maps.used)
    (hcell : ∀ q < s.maps.used, owner q = h →
      s'.maps.cell q = s.maps.cell q ∧ owner' q = owner q) :
    Kept h s' owner' calls g where
  linear := hg.linear
  closed := fun e he ↦ by
    obtain ⟨hlt, howner, hgap, hcalls, hclosing⟩ := hg.closed e he
    obtain ⟨hsame, howner'⟩ := hcell e.table hlt howner
    exact ⟨hlt.trans_le hused, howner'.trans howner, hgap, hsame ▸ hcalls, hclosing⟩
  gap := hg.gap
  current := hlookup.trans hg.current
  calls := fun q cs hcurrent ↦ by
    have hq : s.hashes.lookup h = some q := by rw [hg.current, hcurrent, Option.map_some]
    rw [(hcell q (howned h q hq).1 (howned h q hq).2).1]
    exact hg.calls q cs hcurrent
  nodup := hg.nodup
  later := hg.later
  last := hg.last

/-- A call that does not concern the hash returns. -/
theorem Kept.skip (hg : Kept h s owner calls g) (hc : concerns h c.call = false) :
    Kept h s owner (calls ++ [c]) g := by
  refine { hg with linear := ?_ }
  rw [List.filter_append, List.filter_cons_of_neg (by simp [hc]), List.filter_nil,
    List.append_nil]
  exact hg.linear

theorem filter_concerns (hc : concerns h c.call = true) :
    (calls ++ [c]).filter (fun c ↦ concerns h c.call) =
      calls.filter (fun c ↦ concerns h c.call) ++ [c] := by
  rw [List.filter_append, List.filter_cons_of_pos (by simpa using hc), List.filter_nil]

/-- A call that finds no map returns. -/
theorem Kept.addGap (hg : Kept h s owner calls g) (hc : concerns h c.call = true)
    (hnone : s.hashes.lookup h = none) (hstep : MapStore.serve .new c.call = (c.reply, .new))
    (hnow : ∀ a ∈ calls, a.entered ≤ c.returned ∧ a.returned ≤ c.returned) :
    Kept h s owner (calls ++ [c]) (g.addGap c) := by
  have hcurrent : g.current = none := Option.map_eq_none_iff.mp (hg.current.symm.trans hnone)
  have horder : (g.addGap c).order = g.order ++ [c] := by
    simp [Ledger.order, Ledger.addGap, hcurrent]
  have hgap := hg.gap.concat hstep
  obtain ⟨final', hexplains⟩ := @explains_order h s owner (g.addGap c) hg.closed hgap hg.calls
  obtain ⟨final, hlinear⟩ := hg.linear
  refine { hg with linear := ⟨final', ?_⟩, gap := hgap, last := ?_ }
  · rw [filter_concerns hc, horder]
    rw [horder] at hexplains
    have hend := hlinear
    rw [← List.append_nil g.order] at hend
    exact hend.insert hexplains (fun a ha ↦ (hnow a (List.mem_of_mem_filter ha)).1)
      fun _ hb ↦ absurd hb List.not_mem_nil
  · intro e he b hb
    rw [Ledger.addGap, hcurrent, Option.elim_none, List.append_nil] at hb
    rcases List.mem_append.mp hb with hb | hb
    · exact hg.last e he b (List.mem_append_left _ hb)
    · rw [List.mem_singleton.mp hb]
      exact (hnow _ (hg.closing_mem he)).2

/-- The hash gets a map that it never had. -/
theorem Kept.attach (hg : Kept h s owner calls g) (hnone : s.hashes.lookup h = none)
    (hlookup : s'.hashes.lookup h = some p) (hfresh : p ∉ g.tables) (hempty : s'.maps.cell p = ∅)
    (hclosed : ∀ e ∈ g.closed, EpochKept h s' owner' e) :
    Kept h s' owner' calls (g.attach p) := by
  have hcurrent : g.current = none := Option.map_eq_none_iff.mp (hg.current.symm.trans hnone)
  have htables : (g.attach p).tables = g.tables ++ [p] := by
    simp [Ledger.tables, Ledger.attach, hcurrent]
  refine
    { linear := ?_
      closed := hclosed
      gap := hg.gap
      current := hlookup
      calls := ?_
      nodup := ?_
      later := hg.later
      last := ?_ }
  · have horder : (g.attach p).order = g.order := by
      simp [Ledger.order, Ledger.attach, hcurrent]
    rw [horder]
    exact hg.linear
  · intro q cs hq
    obtain ⟨rfl, rfl⟩ := Prod.mk.inj (Option.some.inj (show some (p, []) = some (q, cs) from hq))
    rw [hempty, holding_empty]
    rfl
  · rw [htables]
    exact List.nodup_append.mpr ⟨hg.nodup, List.nodup_singleton p, fun a ha b hb ↦ by
      rw [List.mem_singleton.mp hb]
      rintro rfl
      exact hfresh ha⟩
  · intro e he b hb
    refine hg.last e he b ?_
    rw [hcurrent]
    exact hb

/-- A `Del` takes the map of the hash away. -/
theorem Kept.close (hg : Kept h s owner calls g) (howned : Owned s owner)
    {cs : List (Completed Request Reply)} (hcurrent : g.current = some (p, cs))
    (hlookup : s'.hashes.lookup h = none) (hmaps : s'.maps = s.maps)
    (hcall : c.call = .update (.del h)) (hreply : c.reply = .nothing)
    (hnow : ∀ a ∈ calls, a.entered ≤ c.returned ∧ a.returned ≤ c.returned) :
    Kept h s' owner (calls ++ [c]) (g.close p cs c) := by
  have hp : s.hashes.lookup h = some p := by rw [hg.current, hcurrent, Option.map_some]
  have hnew : EpochKept h s' owner ⟨g.gap, p, cs, c⟩ := by
    refine ⟨?_, (howned h p hp).2, hg.gap, ?_, hcall, hreply⟩
    · rw [hmaps]
      exact (howned h p hp).1
    · rw [hmaps]
      exact hg.calls p cs hcurrent
  have hclosed : ∀ e ∈ (g.close p cs c).closed, EpochKept h s' owner e := by
    intro e he
    rcases List.mem_append.mp he with he | he
    · obtain ⟨hlt, howner, hgap, hcalls, hclosing⟩ := hg.closed e he
      exact ⟨hmaps ▸ hlt, howner, hgap, hmaps ▸ hcalls, hclosing⟩
    · rw [List.mem_singleton.mp he]
      exact hnew
  have horder : (g.close p cs c).order = g.order ++ [c] := by
    simp [Ledger.order, Ledger.close, hcurrent, Epoch.order]
  obtain ⟨final, hlinear⟩ := hg.linear
  have hnone : ∀ q cs', (g.close p cs c).current = some (q, cs') →
      Explains MapStore.serve .new cs' (holding h (s'.maps.cell q)) :=
    fun q cs' hq ↦ absurd (show (none : Option _) = some (q, cs') from hq) (by simp)
  obtain ⟨final', hexplains⟩ := @explains_order h s' owner (g.close p cs c) hclosed rfl hnone
  refine
    { linear := ⟨final', ?_⟩
      closed := hclosed
      gap := rfl
      current := hlookup
      calls := hnone
      nodup := ?_
      later := ?_
      last := ?_ }
  · rw [filter_concerns (by rw [hcall]; exact decide_eq_true rfl), horder]
    rw [horder] at hexplains
    have hend := hlinear
    rw [← List.append_nil g.order] at hend
    exact hend.insert hexplains (fun a ha ↦ (hnow a (List.mem_of_mem_filter ha)).1)
      fun _ hb ↦ absurd hb List.not_mem_nil
  · have htables : (g.close p cs c).tables = g.tables := by
      simp [Ledger.tables, Ledger.close, hcurrent]
    rw [htables]
    exact hg.nodup
  · refine List.pairwise_append.mpr ⟨hg.later, List.pairwise_singleton _ _, ?_⟩
    intro e he e' he' b hb
    rw [List.mem_singleton.mp he'] at hb
    rcases List.mem_append.mp hb with hb | hb
    · refine hg.last e he b ?_
      rw [hcurrent]
      exact hb
    · rw [List.mem_singleton.mp hb]
      exact (hnow _ (hg.closing_mem he)).2
  · exact fun _ _ _ hb ↦ absurd hb List.not_mem_nil

/-- A call on a map that the hash has or has had returns. -/
theorem Kept.record (hg : Kept h s owner calls g) (hc : concerns h c.call = true)
    (hheld : g.Held p c.entered) (hhashes : s'.hashes = s.hashes)
    (hused : s'.maps.used = s.maps.used) (hcell : ∀ q ≠ p, s'.maps.cell q = s.maps.cell q)
    (hstep : MapStore.serve (holding h (s.maps.cell p)) c.call =
      (c.reply, holding h (s'.maps.cell p)))
    (hnow : ∀ a ∈ calls, a.entered ≤ c.returned ∧ a.returned ≤ c.returned) :
    Kept h s' owner (calls ++ [c]) (g.record p c) := by
  have hclosed : ∀ e ∈ (g.record p c).closed, EpochKept h s' owner e := by
    intro e' he'
    obtain ⟨e, he, rfl⟩ := List.mem_map.mp he'
    obtain ⟨hlt, howner, hgap, hcalls, hclosing⟩ := hg.closed e he
    refine ⟨?_, ?_, ?_, ?_, ?_⟩
    · rwa [Epoch.table_record, hused]
    · rwa [Epoch.table_record]
    · rwa [Epoch.gap_record]
    · rw [Epoch.table_record]
      by_cases htable : e.table = p
      · rw [Epoch.record, if_pos htable, htable]
        rw [htable] at hcalls
        exact hcalls.concat hstep
      · rw [Epoch.record_of_ne htable, hcell _ htable]
        exact hcalls
    · rwa [Epoch.closing_record]
  have hcalls : ∀ q cs, (g.record p c).current = some (q, cs) →
      Explains MapStore.serve .new cs (holding h (s'.maps.cell q)) := by
    intro q cs hq
    obtain ⟨now, hnow', heq⟩ := Option.map_eq_some_iff.mp hq
    have hold := hg.calls now.1 now.2 hnow'
    by_cases hp : now.1 = p
    · rw [if_pos hp] at heq
      obtain ⟨rfl, rfl⟩ := Prod.mk.inj heq
      rw [hp] at hold ⊢
      exact hold.concat hstep
    · rw [if_neg hp] at heq
      rw [heq] at hold hp
      rw [hcell q hp]
      exact hold
  obtain ⟨final', hexplains⟩ := @explains_order h s' owner (g.record p c) hclosed hg.gap hcalls
  obtain ⟨final, hlinear⟩ := hg.linear
  obtain ⟨before, after, horder, horder', hafter⟩ := @Ledger.order_record g p _ c hg.nodup hheld
  refine
    { linear := ⟨final', ?_⟩
      closed := hclosed
      gap := hg.gap
      current := ?_
      calls := hcalls
      nodup := ?_
      later := ?_
      last := ?_ }
  · rw [filter_concerns hc, horder']
    rw [horder'] at hexplains
    rw [horder] at hlinear
    refine hlinear.insert hexplains (fun a ha ↦ (hnow a (List.mem_of_mem_filter ha)).1) ?_
    intro b hb
    rcases hafter with rfl | ⟨front, e, back, hsplit, hentered, rfl⟩
    · exact absurd hb List.not_mem_nil
    · refine hentered.trans ?_
      have hlater := hg.later
      rw [hsplit] at hlater
      have hback := (List.pairwise_cons.mp (List.pairwise_append.mp hlater).2.1).1
      have he : e ∈ g.closed := by
        rw [hsplit]
        exact List.mem_append_right _ List.mem_cons_self
      rcases List.mem_cons.mp hb with rfl | hb
      · exact le_rfl
      · rw [List.append_assoc] at hb
        rcases List.mem_append.mp hb with hb | hb
        · obtain ⟨e', he', hb⟩ := List.mem_flatMap.mp hb
          exact hback e' he' b hb
        · exact hg.last e he b hb
  · have hfst : (g.record p c).current.map Prod.fst = g.current.map Prod.fst := by
      cases hcurrent : g.current with
      | none => simp [Ledger.record, hcurrent]
      | some now =>
        by_cases hp : now.1 = p
        · simp [Ledger.record, hcurrent, hp]
        · simp [Ledger.record, hcurrent, hp]
    rw [hhashes, hfst]
    exact hg.current
  · rw [Ledger.tables_record]
    exact hg.nodup
  · refine List.pairwise_map.mpr (hg.later.imp_of_mem ?_)
    intro e e' he _ hlater b hb
    rw [Epoch.closing_record]
    rcases Epoch.mem_order_record hb with hb | rfl
    · exact hlater b hb
    · exact (hnow _ (hg.closing_mem he)).2
  · intro e' he' b hb
    obtain ⟨e, he, rfl⟩ := List.mem_map.mp he'
    rw [Epoch.closing_record]
    have hb' : b ∈ g.gap ++ g.current.elim [] Prod.snd ∨ b = c := by
      cases hcurrent : g.current with
      | none =>
        simp only [Ledger.record, hcurrent, Option.map_none, Option.elim_none] at hb
        exact Or.inl hb
      | some now =>
        simp only [Ledger.record, hcurrent, Option.map_some, Option.elim_some] at hb
        rcases List.mem_append.mp hb with hb | hb
        · exact Or.inl (List.mem_append_left _ hb)
        · by_cases hp : now.1 = p
          · rw [if_pos hp] at hb
            rcases List.mem_append.mp hb with hb | hb
            · exact Or.inl (List.mem_append_right _ hb)
            · exact Or.inr (List.mem_singleton.mp hb)
          · rw [if_neg hp] at hb
            exact Or.inl (List.mem_append_right _ hb)
    rcases hb' with hb' | rfl
    · exact hg.last e he b hb'
    · exact (hnow _ (hg.closing_mem he)).2

end Kept

end FluxCache.Store.SyncMapStore
