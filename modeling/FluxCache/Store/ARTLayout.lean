import FluxCache.Foundation.Association
import FluxCache.Store.ART

/-!
# Tables of children

What the four layouts have in common. A table is a partial map from bytes to children
(`Layout.view`), and on a proper table (`Layout.Wf`) the operations of the code return and act on
that map: `findChild` reads it, `addChild` binds a byte that was free, in the same layout or in the
next larger one, `removeChild` frees a byte, and a change of a child in place rebinds its byte.

A byte can be added twice to a table of the layouts 4 and 16, and then the table is no map any
more. The equations about `addChild` and `removeChild` are therefore stated for tables whose bytes
are different (`Layout.Distinct`), while the bounds and the children a table can hold are described
for every proper table.
-/

set_option autoImplicit false
set_option relaxedAutoImplicit false

namespace FluxCache.Store.Layout

open FluxCache.Foundation

variable {α : Type} {layout layout' : Layout α} {b : UInt8} {child : α}

/-! ### Proper tables -/

/-- The children of a table by their bytes. -/
def view : Layout α → UInt8 → Option α
  | node4 keys children, b => (keys.zip children).lookup b
  | node16 keys children, b => (keys.zip children).lookup b
  | node48 slots children, b => (slots b).bind fun i ↦ children[i]?
  | node256 children, b => (children[b.toNat]?).join

/-- An index into a slice of children: the slots lie in the slice and differ from each other. -/
structure Slots (slots : UInt8 → Option ℕ) (children : List α) : Prop where
  lt_length : ∀ b i, slots b = some i → i < children.length
  injective : ∀ b c i, slots b = some i → slots c = some i → b = c

/-- A proper table: its slices fit together and have room for one more child. -/
def Wf : Layout α → Prop
  | node4 keys children => keys.length = children.length ∧ keys.length < 4
  | node16 keys children => keys.length = children.length ∧ keys.length < 16
  | node48 slots children => Slots slots children ∧ children.length < 48
  | node256 children => children.length = 256

/-- No byte occurs twice in a table. -/
def Distinct : Layout α → Prop
  | node4 keys _ => keys.Nodup
  | node16 keys _ => keys.Nodup
  | node48 _ _ => True
  | node256 _ => True

/-! ### The layouts 4 and 16 -/

section Rows

variable {rows : List (UInt8 × α)}

theorem childAt_rows (rows : List (UInt8 × α)) (b : UInt8) :
    childAt (rows.map Prod.snd) ((rows.map Prod.fst).idxOf? b) = .ok (rows.lookup b) := by
  rcases lookup_split rows b with ⟨hnone, hidx⟩ | ⟨front, c, back, hsplit, hfront, hidx⟩
  · rw [hidx, hnone]
    rfl
  · have hindex : index (rows.map Prod.snd) front.length = .ok c := by
      refine index_eq_ok ?_
      rw [hsplit]
      simp
    rw [hidx, childAt, hindex, hsplit, lookup_append_cons hfront, if_pos rfl]
    rfl

theorem keyPosition_le (keys : List UInt8) (b : UInt8) : keyPosition keys b ≤ keys.length :=
  (List.takeWhile_sublist _).length_le

/-- The rows with a new one at the position of its byte. -/
def insertRow (rows : List (UInt8 × α)) (b : UInt8) (child : α) : List (UInt8 × α) :=
  rows.take (keyPosition (rows.map Prod.fst) b) ++
    (b, child) :: rows.drop (keyPosition (rows.map Prod.fst) b)

theorem insertAt_rows {β : Type} (f : UInt8 × α → β) (rows : List (UInt8 × α)) (b : UInt8)
    (child : α) :
    insertAt (rows.map f) (keyPosition (rows.map Prod.fst) b) (f (b, child)) =
      .ok ((insertRow rows b child).map f) := by
  have hle : keyPosition (rows.map Prod.fst) b ≤ (rows.map f).length := by
    have := keyPosition_le (rows.map Prod.fst) b
    simpa using this
  rw [insertAt, if_pos hle, insertRow, List.map_append, List.map_cons, List.map_take,
    List.map_drop]

theorem insertRow_perm (rows : List (UInt8 × α)) (b : UInt8) (child : α) :
    (insertRow rows b child).Perm ((b, child) :: rows) := by
  refine List.perm_middle.trans ?_
  rw [List.take_append_drop]

theorem lookup_insertRow (hb : rows.lookup b = none) :
    (fun k ↦ (insertRow rows b child).lookup k) =
      Function.update (fun k ↦ rows.lookup k) b (some child) := by
  funext k
  rw [insertRow, lookup_insert hb, Function.update_apply]

theorem nodup_insertRow (hb : rows.lookup b = none) (hnodup : (rows.map Prod.fst).Nodup) :
    ((insertRow rows b child).map Prod.fst).Nodup := by
  refine ((insertRow_perm rows b child).map Prod.fst).nodup_iff.mpr ?_
  exact List.nodup_cons.mpr ⟨lookup_eq_none_iff_notMem.mp hb, hnodup⟩

/-- The rows with the child of a byte replaced. -/
theorem replace_rows (rows : List (UInt8 × α)) (b : UInt8) (child : α) :
    ∃ rows' : List (UInt8 × α), rows'.map Prod.fst = rows.map Prod.fst ∧
      rows'.map Prod.snd = ((rows.map Prod.fst).idxOf? b).elim (rows.map Prod.snd)
        (fun i ↦ (rows.map Prod.snd).set i child) ∧
      (∀ x ∈ rows'.map Prod.snd, x = child ∨ x ∈ rows.map Prod.snd) ∧
      (rows.lookup b ≠ none → (fun k ↦ rows'.lookup k) =
        Function.update (fun k ↦ rows.lookup k) b (some child)) := by
  rcases lookup_split rows b with ⟨hnone, hidx⟩ | ⟨front, c, back, hsplit, hfront, hidx⟩
  · refine ⟨rows, rfl, ?_, fun x hx ↦ Or.inr hx, fun h ↦ absurd hnone h⟩
    rw [hidx]
    rfl
  · refine ⟨front ++ (b, child) :: back, ?_, ?_, fun x hx ↦ ?_, fun _ ↦ ?_⟩
    · rw [hsplit]
      simp
    · rw [hidx, hsplit]
      simp
    · rw [hsplit]
      simp only [List.map_append, List.map_cons, List.mem_append, List.mem_cons] at hx ⊢
      tauto
    · funext k
      rw [hsplit, lookup_append_cons hfront, Function.update_apply, lookup_append_cons hfront]
      by_cases hk : k = b
      · rw [if_pos hk, if_pos hk]
      · rw [if_neg hk, if_neg hk, if_neg hk]

/-- The rows without the first row of a byte. -/
theorem remove_rows (rows : List (UInt8 × α)) (b : UInt8) {i : ℕ}
    (hidx : (rows.map Prod.fst).idxOf? b = some i) :
    ∃ rows' : List (UInt8 × α), rows'.map Prod.fst = (rows.map Prod.fst).eraseIdx i ∧
      rows'.map Prod.snd = (rows.map Prod.snd).eraseIdx i ∧ rows'.Sublist rows ∧
      ((rows.map Prod.fst).Nodup → (fun k ↦ rows'.lookup k) =
        Function.update (fun k ↦ rows.lookup k) b none) := by
  rcases lookup_split rows b with ⟨-, hnone⟩ | ⟨front, c, back, hsplit, -, hsome⟩
  · rw [hnone] at hidx
    exact absurd hidx (by simp)
  · rw [hsome] at hidx
    obtain rfl := Option.some.inj hidx
    refine ⟨front ++ back, ?_, ?_, ?_, fun hnodup ↦ ?_⟩
    · rw [hsplit]
      simp [List.eraseIdx_append_of_length_le]
    · rw [hsplit]
      simp [List.eraseIdx_append_of_length_le]
    · rw [hsplit]
      exact List.Sublist.append_left (List.sublist_cons_self _ _) front
    · rw [hsplit] at hnodup ⊢
      funext k
      rw [lookup_remove hnodup, Function.update_apply]

end Rows

/-! ### Growing to the layout 48 -/

theorem slotsOf_append_singleton (keys : List UInt8) (k : UInt8) :
    slotsOf (keys ++ [k]) = Function.update (slotsOf keys) k (some keys.length) := by
  rw [slotsOf, List.zipIdx_append, List.foldl_append, Nat.zero_add]
  rfl

/-- A slot of the index that `grow16to48` builds is a position of its byte. -/
theorem getElem?_of_slotsOf {keys : List UInt8} {i : ℕ} (h : slotsOf keys b = some i) :
    keys[i]? = some b := by
  induction keys using List.reverseRecOn with
  | nil => exact absurd h (by simp [slotsOf])
  | append_singleton keys k ih =>
    rw [slotsOf_append_singleton, Function.update_apply] at h
    by_cases hb : b = k
    · rw [if_pos hb] at h
      rw [← Option.some.inj h, hb]
      simp
    · rw [if_neg hb] at h
      have hget := ih h
      have hlt := (List.getElem?_eq_some_iff.mp hget).1
      rw [List.getElem?_append_left hlt]
      exact hget

theorem exists_slotsOf {keys : List UInt8} (h : b ∈ keys) : ∃ i, slotsOf keys b = some i := by
  induction keys using List.reverseRecOn with
  | nil => exact absurd h List.not_mem_nil
  | append_singleton keys k ih =>
    rw [slotsOf_append_singleton, Function.update_apply]
    by_cases hb : b = k
    · exact ⟨keys.length, if_pos hb⟩
    · rw [if_neg hb]
      rcases List.mem_append.mp h with h | h
      · exact ih h
      · exact absurd (List.mem_singleton.mp h) hb

theorem slots_slotsOf (rows : List (UInt8 × α)) :
    Slots (slotsOf (rows.map Prod.fst)) (rows.map Prod.snd) := by
  refine ⟨fun b i h ↦ ?_, fun b c i hb hc ↦ ?_⟩
  · have hlt := (List.getElem?_eq_some_iff.mp (getElem?_of_slotsOf h)).1
    rwa [List.length_map] at hlt ⊢
  · have hsame := (getElem?_of_slotsOf hb).symm.trans (getElem?_of_slotsOf hc)
    exact Option.some.inj hsame

/-- Growing a table with different bytes to the layout 48 keeps its view. -/
theorem view_grow16to48 {rows : List (UInt8 × α)} (hnodup : (rows.map Prod.fst).Nodup) :
    (node48 (slotsOf (rows.map Prod.fst)) (rows.map Prod.snd)).view = fun k ↦ rows.lookup k := by
  funext k
  rcases lookup_split rows k with ⟨hnone, -⟩ | ⟨front, c, back, hsplit, hfront, -⟩
  · have hslot : slotsOf (rows.map Prod.fst) k = none := by
      refine Option.eq_none_iff_forall_ne_some.mpr fun i hi ↦ ?_
      exact lookup_eq_none_iff_notMem.mp hnone (List.mem_of_getElem? (getElem?_of_slotsOf hi))
    rw [view, hslot, hnone]
    rfl
  · have hmem : k ∈ rows.map Prod.fst := by
      rw [hsplit]
      simp
    obtain ⟨i, hi⟩ := exists_slotsOf hmem
    have hget := getElem?_of_slotsOf hi
    have hfirst : (rows.map Prod.fst)[front.length]? = some k := by
      rw [hsplit]
      simp
    have heq : i = front.length := by
      have hi' := (List.getElem?_eq_some_iff.mp hget).1
      exact (List.getElem?_inj hi' hnodup).mp (hget.trans hfirst.symm)
    rw [view, hi, heq, Option.bind_some, hsplit, lookup_append_cons hfront, if_pos rfl]
    simp

/-! ### Growing to the layout 256 -/

/-- The byte of a slot is the one that has it. -/
theorem byteOf_eq_some_iff {slots : UInt8 → Option ℕ}
    (hslots : ∀ b c i, slots b = some i → slots c = some i → b = c) {i k : ℕ} :
    byteOf slots i = some k ↔ ∃ b, slots b = some i ∧ k = b.toNat := by
  constructor
  · intro h
    have hfound := List.find?_some h
    have hlt := List.mem_range.mp (List.mem_of_find?_eq_some h)
    refine ⟨UInt8.ofNat k, of_decide_eq_true hfound, ?_⟩
    rw [UInt8.toNat_ofNat_of_lt' hlt]
  · rintro ⟨b, hb, rfl⟩
    have hexists : (byteOf slots i).isSome := by
      refine List.find?_isSome.mpr ⟨b.toNat, List.mem_range.mpr b.toNat_lt, decide_eq_true ?_⟩
      rw [UInt8.ofNat_toNat]
      exact hb
    obtain ⟨k, hk⟩ := Option.isSome_iff_exists.mp hexists
    have hlt := List.mem_range.mp (List.mem_of_find?_eq_some hk)
    have hfound := List.find?_some hk
    have hsame := hslots _ _ _ (of_decide_eq_true hfound) hb
    rw [hk, ← hsame, UInt8.toNat_ofNat_of_lt' hlt]

/-- The array that `grow48to256` fills holds every child at the byte of its slot. -/
theorem foldl_placeChild {slots : UInt8 → Option ℕ}
    (hslots : ∀ b c i, slots b = some i → slots c = some i → b = c) (children : List α) :
    (children.zipIdx.foldl (placeChild slots) (List.replicate 256 none)).length = 256 ∧
      ∀ b, (children.zipIdx.foldl (placeChild slots) (List.replicate 256 none))[b.toNat]? =
        some ((slots b).bind fun i ↦ children[i]?) := by
  induction children using List.reverseRecOn with
  | nil =>
    refine ⟨List.length_replicate, fun b ↦ ?_⟩
    rw [List.zipIdx_nil, List.foldl_nil, List.getElem?_replicate_of_lt b.toNat_lt]
    simp
  | append_singleton children child ih =>
    obtain ⟨hlength, hget⟩ := ih
    rw [List.zipIdx_append, List.foldl_append, Nat.zero_add, List.zipIdx_singleton, List.foldl_cons,
      List.foldl_nil]
    generalize children.zipIdx.foldl (placeChild slots) (List.replicate 256 none) = newChildren at *
    have hnext : ∀ i ≠ children.length, (children ++ [child])[i]? = children[i]? := by
      intro i hi
      rcases Nat.lt_or_gt_of_ne hi with hlt | hgt
      · rw [List.getElem?_append_left hlt]
      · rw [List.getElem?_append_right hgt.le, List.getElem?_eq_none hgt.le]
        exact List.getElem?_eq_none (by simp; omega)
    unfold placeChild
    cases hbyte : byteOf slots children.length with
    | none =>
      refine ⟨hlength, fun b ↦ ?_⟩
      rw [hget b]
      cases hslot : slots b with
      | none => rfl
      | some i =>
        have hne : i ≠ children.length := by
          rintro rfl
          rw [(byteOf_eq_some_iff hslots).mpr ⟨b, hslot, rfl⟩] at hbyte
          exact absurd hbyte (by simp)
        rw [Option.bind_some, Option.bind_some, hnext i hne]
    | some k =>
      obtain ⟨owner, howner, rfl⟩ := (byteOf_eq_some_iff hslots).mp hbyte
      refine ⟨by rw [List.length_set]; exact hlength, fun b ↦ ?_⟩
      by_cases hb : b = owner
      · rw [hb, List.getElem?_set_self (by rw [hlength]; exact owner.toNat_lt), howner]
        simp
      · have hnat : owner.toNat ≠ b.toNat := fun h ↦ hb (UInt8.toNat_inj.mp h.symm)
        rw [List.getElem?_set_ne hnat, hget b]
        cases hslot : slots b with
        | none => rfl
        | some i =>
          have hne : i ≠ children.length := by
            rintro rfl
            exact hb (hslots _ _ _ hslot howner)
          rw [Option.bind_some, Option.bind_some, hnext i hne]

/-- Growing a table to the layout 256 keeps its view and forgets the children without a byte. -/
theorem grow48to256_spec {slots : UInt8 → Option ℕ} {children : List α}
    (hslots : Slots slots children) :
    (grow48to256 slots children).Wf ∧
      (grow48to256 slots children).view = (node48 slots children).view ∧
      ∀ x ∈ (grow48to256 slots children).members, x ∈ children := by
  obtain ⟨hlength, hget⟩ := foldl_placeChild hslots.injective children
  refine ⟨hlength, ?_, fun x hx ↦ ?_⟩
  · funext b
    show ((children.zipIdx.foldl (placeChild slots) (List.replicate 256 none))[b.toNat]?).join = _
    rw [hget b, Option.join_some]
    rfl
  · obtain ⟨slot, hmem, hslot⟩ := List.mem_filterMap.mp hx
    rw [show slot = some x from hslot] at hmem
    obtain ⟨k, hk⟩ := List.mem_iff_getElem?.mp hmem
    have hlt := (List.getElem?_eq_some_iff.mp hk).1
    have hvalue := hget (UInt8.ofNat k)
    rw [hlength] at hlt
    rw [UInt8.toNat_ofNat_of_lt' hlt, hk] at hvalue
    obtain ⟨i, -, hi⟩ := Option.bind_eq_some_iff.mp (Option.some.inj hvalue).symm
    exact List.mem_of_getElem? hi

/-! ### The operations -/

/-- `findChild` on a proper table reads its view. -/
theorem findChild_eq (hwf : layout.Wf) (b : UInt8) :
    layout.findChild b = .ok (layout.view b) := by
  cases layout with
  | node4 keys children =>
    obtain ⟨rows, rfl, rfl⟩ := exists_rows hwf.1
    rw [findChild, childAt_rows, view, zip_projections]
  | node16 keys children =>
    obtain ⟨rows, rfl, rfl⟩ := exists_rows hwf.1
    rw [findChild, childAt_rows, view, zip_projections]
  | node48 slots children =>
    rw [findChild, view]
    cases hslot : slots b with
    | none => rfl
    | some i =>
      have hlt := hwf.1.lt_length b i hslot
      rw [childAt, index_eq_ok (List.getElem?_eq_getElem hlt), Option.bind_some,
        List.getElem?_eq_getElem hlt]
      rfl
  | node256 children =>
    have hlt : b.toNat < children.length := by
      rw [show children.length = 256 from hwf]
      exact b.toNat_lt
    rw [findChild, index_eq_ok (List.getElem?_eq_getElem hlt), view,
      List.getElem?_eq_getElem hlt, Option.join_some]

theorem mem_of_view (hwf : layout.Wf) (h : layout.view b = some child) :
    child ∈ layout.members := by
  refine mem_of_findChild (b := b) ?_
  rw [findChild_eq hwf, h]

/-- What `addChild` leaves of a table. -/
structure Added (layout : Layout α) (b : UInt8) (child : α) (layout' : Layout α) : Prop where
  wf : layout'.Wf
  members : ∀ x ∈ layout'.members, x = child ∨ x ∈ layout.members
  distinct : layout.Distinct → layout.view b = none → layout'.Distinct
  view : layout.Distinct → layout.view b = none →
    layout'.view = Function.update layout.view b (some child)

/-- A row added to the rows of a table of the layouts 4 and 16. -/
theorem added_rows {rows : List (UInt8 × α)} {layout' : Layout α} (hwf : layout'.Wf)
    (hmembers : ∀ x ∈ layout'.members, x ∈ (insertRow rows b child).map Prod.snd)
    (hrows : layout.members = rows.map Prod.snd) (hview : layout.view = fun k ↦ rows.lookup k)
    (hdistinct : layout.Distinct → (rows.map Prod.fst).Nodup)
    (hnew : ((insertRow rows b child).map Prod.fst).Nodup →
      layout'.Distinct ∧ layout'.view = fun k ↦ (insertRow rows b child).lookup k) :
    Added layout b child layout' := by
  have hnodup : layout.Distinct → layout.view b = none →
      ((insertRow rows b child).map Prod.fst).Nodup := by
    intro hold hb
    rw [hview] at hb
    exact nodup_insertRow hb (hdistinct hold)
  refine ⟨hwf, fun x hx ↦ ?_, fun hold hb ↦ (hnew (hnodup hold hb)).1, fun hold hb ↦ ?_⟩
  · obtain ⟨row, hrow, rfl⟩ := List.mem_map.mp (hmembers x hx)
    rcases List.mem_cons.mp ((insertRow_perm rows b child).mem_iff.mp hrow) with rfl | hrow
    · exact Or.inl rfl
    · rw [hrows]
      exact Or.inr (List.mem_map_of_mem hrow)
  · rw [(hnew (hnodup hold hb)).2]
    rw [hview] at hb ⊢
    exact lookup_insertRow hb

theorem view_node4 (rows : List (UInt8 × α)) :
    (node4 (rows.map Prod.fst) (rows.map Prod.snd)).view = fun k ↦ rows.lookup k := by
  funext k
  rw [view, zip_projections]

theorem view_node16 (rows : List (UInt8 × α)) :
    (node16 (rows.map Prod.fst) (rows.map Prod.snd)).view = fun k ↦ rows.lookup k := by
  funext k
  rw [view, zip_projections]

/-- A kind of table that keeps its bytes and its children in two slices of fewer than `room`
elements. -/
structure Sliced (make : List UInt8 → List α → Layout α) (room : ℕ) : Prop where
  wf_iff : ∀ keys children,
    (make keys children).Wf ↔ keys.length = children.length ∧ keys.length < room
  members_eq : ∀ keys children, (make keys children).members = children
  distinct_iff : ∀ keys children, (make keys children).Distinct ↔ keys.Nodup
  view_eq : ∀ rows : List (UInt8 × α),
    (make (rows.map Prod.fst) (rows.map Prod.snd)).view = fun k ↦ rows.lookup k
  remove_eq : ∀ keys children b, (make keys children).removeChild b =
    .ok ((keys.idxOf? b).elim (make keys children) fun i ↦
      make (keys.eraseIdx i) (children.eraseIdx i))
  replace_eq : ∀ keys children b child, (make keys children).replaceChild b child =
    make keys ((keys.idxOf? b).elim children fun i ↦ children.set i child)

theorem sliced_node4 : @Sliced α node4 4 := by
  refine ⟨fun _ _ ↦ Iff.rfl, fun _ _ ↦ rfl, fun _ _ ↦ Iff.rfl, view_node4, fun keys _ b ↦ ?_,
    fun _ _ _ _ ↦ rfl⟩
  rw [removeChild]
  cases keys.idxOf? b with
  | none => rfl
  | some i => rfl

theorem sliced_node16 : @Sliced α node16 16 := by
  refine ⟨fun _ _ ↦ Iff.rfl, fun _ _ ↦ rfl, fun _ _ ↦ Iff.rfl, view_node16, fun keys _ b ↦ ?_,
    fun _ _ _ _ ↦ rfl⟩
  rw [removeChild]
  cases keys.idxOf? b with
  | none => rfl
  | some i => rfl

theorem length_insertRow (rows : List (UInt8 × α)) (b : UInt8) (child : α) :
    (insertRow rows b child).length = rows.length + 1 := by
  rw [(insertRow_perm rows b child).length_eq, List.length_cons]

/-- Assumes: the larger table that `grow` makes of a full one is proper and holds its rows. Adding a
child inserts its row, in the same kind of table or, when that is full, in the larger one. -/
theorem Sliced.addChild {make grow : List UInt8 → List α → Layout α} {room : ℕ}
    (hs : Sliced make room) {keys : List UInt8} {children : List α}
    (hwf : (make keys children).Wf) (b : UInt8) (child : α)
    (hadd : (make keys children).addChild b child = do
      let newKeys ← insertAt keys (keyPosition keys b) b
      let newChildren ← insertAt children (keyPosition keys b) child
      pure (if room ≤ newKeys.length then grow newKeys newChildren else make newKeys newChildren))
    (hgrow : ∀ rows : List (UInt8 × α), rows.length = room →
      (grow (rows.map Prod.fst) (rows.map Prod.snd)).Wf)
    (hmembers : ∀ keys children, (grow keys children).members = children)
    (hview : ∀ rows : List (UInt8 × α), (rows.map Prod.fst).Nodup →
      (grow (rows.map Prod.fst) (rows.map Prod.snd)).Distinct ∧
        (grow (rows.map Prod.fst) (rows.map Prod.snd)).view = fun k ↦ rows.lookup k) :
    ∃ layout', (make keys children).addChild b child = .ok layout' ∧
      Added (make keys children) b child layout' := by
  obtain ⟨hlength, hroom⟩ := (hs.wf_iff keys children).mp hwf
  obtain ⟨rows, rfl, rfl⟩ := exists_rows hlength
  have hkeys := insertAt_rows Prod.fst rows b child
  have hchildren := insertAt_rows Prod.snd rows b child
  rw [List.length_map] at hroom
  simp only [hkeys, hchildren, bind, Except.bind, pure, Except.pure] at hadd
  refine ⟨_, hadd, ?_⟩
  by_cases hfull : room ≤ ((insertRow rows b child).map Prod.fst).length
  · rw [if_pos hfull]
    rw [List.length_map, length_insertRow] at hfull
    refine added_rows (hgrow _ ?_) (fun x hx ↦ ?_) (hs.members_eq _ _) (hs.view_eq rows)
      (hs.distinct_iff _ _).mp (hview _)
    · rw [length_insertRow]
      omega
    · rwa [hmembers] at hx
  · rw [if_neg hfull]
    refine added_rows ((hs.wf_iff _ _).mpr ⟨?_, not_le.mp hfull⟩) (fun x hx ↦ ?_)
      (hs.members_eq _ _) (hs.view_eq rows) (hs.distinct_iff _ _).mp
      fun hnodup ↦ ⟨(hs.distinct_iff _ _).mpr hnodup, hs.view_eq _⟩
    · rw [List.length_map, List.length_map]
    · rwa [hs.members_eq] at hx

theorem addChild_node4 {keys : List UInt8} {children : List α} (hwf : (node4 keys children).Wf)
    (b : UInt8) (child : α) :
    ∃ layout', (node4 keys children).addChild b child = .ok layout' ∧
      Added (node4 keys children) b child layout' := by
  refine @Sliced.addChild α node4 grow4to16 4 sliced_node4 keys children hwf b child rfl
    (fun rows hrows ↦ ?_) (fun _ _ ↦ rfl) fun rows hnodup ↦ ⟨hnodup, view_node16 rows⟩
  refine (sliced_node16.wf_iff _ _).mpr ⟨by simp, ?_⟩
  rw [List.length_map, hrows]
  decide

theorem addChild_node16 {keys : List UInt8} {children : List α}
    (hwf : (node16 keys children).Wf) (b : UInt8) (child : α) :
    ∃ layout', (node16 keys children).addChild b child = .ok layout' ∧
      Added (node16 keys children) b child layout' := by
  refine @Sliced.addChild α node16 grow16to48 16 sliced_node16 keys children hwf b child rfl
    (fun rows hrows ↦ ⟨slots_slotsOf rows, ?_⟩) (fun _ _ ↦ rfl)
    fun rows hnodup ↦ ⟨trivial, view_grow16to48 hnodup⟩
  rw [List.length_map, hrows]
  decide

/-- A new child in a new slot at the end of the slice. -/
theorem slots_append {slots : UInt8 → Option ℕ} {children : List α} (hslots : Slots slots children)
    (b : UInt8) (child : α) :
    Slots (Function.update slots b (some children.length)) (children ++ [child]) ∧
      (node48 (Function.update slots b (some children.length)) (children ++ [child])).view =
        Function.update (node48 slots children).view b (some child) := by
  have hlt := hslots.lt_length
  refine ⟨⟨fun c i hc ↦ ?_, fun c d i hc hd ↦ ?_⟩, ?_⟩
  · rw [Function.update_apply] at hc
    rw [List.length_append, List.length_singleton]
    by_cases hcb : c = b
    · rw [if_pos hcb] at hc
      rw [← Option.some.inj hc]
      exact Nat.lt_succ_self _
    · rw [if_neg hcb] at hc
      exact Nat.lt_succ_of_lt (hlt c i hc)
  · rw [Function.update_apply] at hc hd
    by_cases hcb : c = b
    · by_cases hdb : d = b
      · rw [hcb, hdb]
      · rw [if_pos hcb] at hc
        rw [if_neg hdb, ← hc] at hd
        exact absurd (hlt d _ hd) (lt_irrefl _)
    · by_cases hdb : d = b
      · rw [if_pos hdb] at hd
        rw [if_neg hcb, ← hd] at hc
        exact absurd (hlt c _ hc) (lt_irrefl _)
      · rw [if_neg hcb] at hc
        rw [if_neg hdb] at hd
        exact hslots.injective c d i hc hd
  · funext c
    rw [view, Function.update_apply, Function.update_apply]
    by_cases hcb : c = b
    · rw [if_pos hcb, if_pos hcb, Option.bind_some]
      simp
    · rw [if_neg hcb, if_neg hcb, view]
      cases hslot : slots c with
      | none => rfl
      | some i =>
        rw [Option.bind_some, Option.bind_some, List.getElem?_append_left (hlt c i hslot)]

theorem addChild_node48 {slots : UInt8 → Option ℕ} {children : List α}
    (hwf : (node48 slots children).Wf) (b : UInt8) (child : α) :
    ∃ layout', (node48 slots children).addChild b child = .ok layout' ∧
      Added (node48 slots children) b child layout' := by
  obtain ⟨hslots, hroom⟩ := hwf
  obtain ⟨hslots', hview⟩ := slots_append hslots b child
  have hmembers : ∀ x ∈ children ++ [child], x = child ∨ x ∈ children := by
    intro x hx
    simp only [List.mem_append, List.mem_singleton] at hx
    exact hx.symm
  refine ⟨_, rfl, ?_⟩
  by_cases hfull : (children ++ [child]).length = 48
  · rw [if_pos hfull]
    obtain ⟨hwf', hview', hsub⟩ := grow48to256_spec hslots'
    exact ⟨hwf', fun x hx ↦ hmembers x (hsub x hx), fun _ _ ↦ trivial,
      fun _ _ ↦ hview'.trans hview⟩
  · rw [if_neg hfull]
    refine ⟨⟨hslots', ?_⟩, hmembers, fun _ _ ↦ trivial, fun _ _ ↦ hview⟩
    rw [List.length_append, List.length_singleton] at hfull ⊢
    omega

/-- An assignment in a direct array of children. -/
theorem set_node256 {children : List (Option α)} (hwf : (node256 children).Wf) (b : UInt8)
    (slot : Option α) :
    setIndex children b.toNat slot = .ok (children.set b.toNat slot) ∧
      (node256 (children.set b.toNat slot)).Wf ∧
      (node256 (children.set b.toNat slot)).view =
        Function.update (node256 children).view b slot ∧
      ∀ x ∈ (node256 (children.set b.toNat slot)).members,
        some x = slot ∨ x ∈ (node256 children).members := by
  have hlength : children.length = 256 := hwf
  have hlt : b.toNat < children.length := by
    rw [hlength]
    exact b.toNat_lt
  refine ⟨if_pos hlt, (List.length_set).trans hlength, ?_, fun x hx ↦ ?_⟩
  · funext c
    rw [view, Function.update_apply]
    by_cases hcb : c = b
    · rw [if_pos hcb, hcb, List.getElem?_set_self hlt, Option.join_some]
    · have hnat : b.toNat ≠ c.toNat := fun h ↦ hcb (UInt8.toNat_inj.mp h.symm)
      rw [if_neg hcb, List.getElem?_set_ne hnat, view]
  · obtain ⟨y, hy, hyx⟩ := List.mem_filterMap.mp hx
    rw [show y = some x from hyx] at hy
    rcases List.mem_or_eq_of_mem_set hy with hy | hy
    · exact Or.inr (List.mem_filterMap.mpr ⟨some x, hy, rfl⟩)
    · exact Or.inl hy

/-- `addChild` on a proper table returns. -/
theorem addChild_spec (hwf : layout.Wf) (b : UInt8) (child : α) :
    ∃ layout', layout.addChild b child = .ok layout' ∧ Added layout b child layout' := by
  cases layout with
  | node4 keys children => exact addChild_node4 hwf b child
  | node16 keys children => exact addChild_node16 hwf b child
  | node48 slots children => exact addChild_node48 hwf b child
  | node256 children =>
    obtain ⟨hset, hwf', hview, hmembers⟩ := set_node256 hwf b (some child)
    refine ⟨node256 (children.set b.toNat (some child)), ?_, hwf', fun x hx ↦ ?_,
      fun _ _ ↦ trivial, fun _ _ ↦ hview⟩
    · rw [addChild, hset]
      rfl
    · exact (hmembers x hx).imp_left Option.some.inj

/-- What `removeChild` leaves of a table. -/
structure Removed (layout : Layout α) (b : UInt8) (layout' : Layout α) : Prop where
  wf : layout'.Wf
  members : ∀ x ∈ layout'.members, x ∈ layout.members
  distinct : layout.Distinct → layout'.Distinct
  view : layout.Distinct → layout'.view = Function.update layout.view b none

theorem removed_self (hwf : layout.Wf) (hb : layout.view b = none) : Removed layout b layout := by
  refine ⟨hwf, fun x hx ↦ hx, fun h ↦ h, fun _ ↦ ?_⟩
  rw [← hb, Function.update_eq_self]

theorem Sliced.removeChild {make : List UInt8 → List α → Layout α} {room : ℕ}
    (hs : Sliced make room) {keys : List UInt8} {children : List α}
    (hwf : (make keys children).Wf) (b : UInt8) :
    ∃ layout', (make keys children).removeChild b = .ok layout' ∧
      Removed (make keys children) b layout' := by
  refine ⟨_, hs.remove_eq keys children b, ?_⟩
  obtain ⟨hlength, hroom⟩ := (hs.wf_iff keys children).mp hwf
  obtain ⟨rows, rfl, rfl⟩ := exists_rows hlength
  cases hidx : (rows.map Prod.fst).idxOf? b with
  | none =>
    refine removed_self hwf ?_
    rw [hs.view_eq]
    rcases lookup_split rows b with ⟨hnone, -⟩ | ⟨front, c, back, -, -, hsome⟩
    · exact hnone
    · rw [hidx] at hsome
      exact absurd hsome (by simp)
  | some i =>
    obtain ⟨rows', hkeys, hchildren, hsub, hview⟩ := remove_rows rows b hidx
    rw [Option.elim_some, ← hkeys, ← hchildren]
    refine ⟨(hs.wf_iff _ _).mpr ⟨by simp, ?_⟩, fun x hx ↦ ?_, fun hnodup ↦ ?_, fun hnodup ↦ ?_⟩
    · rw [List.length_map] at hroom ⊢
      exact hsub.length_le.trans_lt hroom
    · rw [hs.members_eq] at hx ⊢
      exact (hsub.map Prod.snd).subset hx
    · rw [hs.distinct_iff] at hnodup ⊢
      exact List.Nodup.sublist (hsub.map Prod.fst) hnodup
    · rw [hs.distinct_iff] at hnodup
      rw [hs.view_eq, hs.view_eq]
      exact hview hnodup

/-- `removeChild` on a proper table returns. -/
theorem removeChild_spec (hwf : layout.Wf) (b : UInt8) :
    ∃ layout', layout.removeChild b = .ok layout' ∧ Removed layout b layout' := by
  cases layout with
  | node4 keys children => exact sliced_node4.removeChild hwf b
  | node16 keys children => exact sliced_node16.removeChild hwf b
  | node48 slots children =>
    obtain ⟨hslots, hroom⟩ := hwf
    refine ⟨_, rfl, ⟨⟨fun c i hc ↦ ?_, fun c d i hc hd ↦ ?_⟩, hroom⟩, fun x hx ↦ hx,
      fun _ ↦ trivial, fun _ ↦ ?_⟩
    · rw [Function.update_apply] at hc
      by_cases hcb : c = b
      · rw [if_pos hcb] at hc
        exact absurd hc (by simp)
      · rw [if_neg hcb] at hc
        exact hslots.lt_length c i hc
    · rw [Function.update_apply] at hc hd
      by_cases hcb : c = b
      · rw [if_pos hcb] at hc
        exact absurd hc (by simp)
      by_cases hdb : d = b
      · rw [if_pos hdb] at hd
        exact absurd hd (by simp)
      rw [if_neg hcb] at hc
      rw [if_neg hdb] at hd
      exact hslots.injective c d i hc hd
    · funext c
      rw [view, Function.update_apply, Function.update_apply]
      by_cases hcb : c = b
      · rw [if_pos hcb, if_pos hcb]
        rfl
      · rw [if_neg hcb, if_neg hcb]
        rfl
  | node256 children =>
    obtain ⟨hset, hwf', hview, hmembers⟩ := set_node256 hwf b none
    refine ⟨node256 (children.set b.toNat none), ?_, hwf', fun x hx ↦ ?_, fun _ ↦ trivial,
      fun _ ↦ hview⟩
    · rw [removeChild, hset]
      rfl
    · exact (hmembers x hx).resolve_left (by simp)

/-- What the change of a child in place leaves of a table. -/
structure Replaced (layout : Layout α) (b : UInt8) (child : α) (layout' : Layout α) : Prop where
  wf : layout'.Wf
  members : ∀ x ∈ layout'.members, x = child ∨ x ∈ layout.members
  distinct : layout.Distinct → layout'.Distinct
  view : layout.view b ≠ none → layout'.view = Function.update layout.view b (some child)

theorem Sliced.replaceChild {make : List UInt8 → List α → Layout α} {room : ℕ}
    (hs : Sliced make room) {keys : List UInt8} {children : List α}
    (hwf : (make keys children).Wf) (b : UInt8) (child : α) :
    Replaced (make keys children) b child ((make keys children).replaceChild b child) := by
  obtain ⟨hlength, hroom⟩ := (hs.wf_iff keys children).mp hwf
  obtain ⟨rows, rfl, rfl⟩ := exists_rows hlength
  obtain ⟨rows', hkeys, hchildren, hmembers, hview⟩ := replace_rows rows b child
  have hnew : (make (rows.map Prod.fst) (rows'.map Prod.snd)).view = fun k ↦ rows'.lookup k := by
    rw [← hkeys, hs.view_eq]
  rw [hs.replace_eq, ← hchildren]
  refine ⟨(hs.wf_iff _ _).mpr ⟨?_, hroom⟩, fun x hx ↦ ?_, fun h ↦ ?_, fun h ↦ ?_⟩
  · rw [← hkeys, List.length_map, List.length_map]
  · rw [hs.members_eq] at hx ⊢
    exact hmembers x hx
  · rw [hs.distinct_iff] at h ⊢
    exact h
  · rw [hs.view_eq] at h
    rw [hnew, hs.view_eq]
    exact hview h

theorem replaceChild_spec (hwf : layout.Wf) (b : UInt8) (child : α) :
    Replaced layout b child (layout.replaceChild b child) := by
  cases layout with
  | node4 keys children => exact sliced_node4.replaceChild hwf b child
  | node16 keys children => exact sliced_node16.replaceChild hwf b child
  | node48 slots children =>
    obtain ⟨hslots, hroom⟩ := hwf
    rw [replaceChild]
    cases hslot : slots b with
    | none =>
      refine ⟨⟨hslots, hroom⟩, fun x hx ↦ Or.inr hx, fun _ ↦ trivial, fun h ↦ ?_⟩
      rw [view, hslot] at h
      exact absurd rfl h
    | some i =>
      refine ⟨⟨⟨fun c j hc ↦ ?_, hslots.injective⟩, ?_⟩, fun x hx ↦ ?_, fun _ ↦ trivial,
        fun _ ↦ ?_⟩
      · rw [Option.elim_some, List.length_set]
        exact hslots.lt_length c j hc
      · rw [Option.elim_some, List.length_set]
        exact hroom
      · exact (List.mem_or_eq_of_mem_set hx).symm
      · funext c
        rw [view, Function.update_apply, Option.elim_some]
        by_cases hcb : c = b
        · rw [if_pos hcb, hcb, hslot, Option.bind_some,
            List.getElem?_set_self (hslots.lt_length b i hslot)]
        · rw [if_neg hcb, view]
          cases hc : slots c with
          | none => rfl
          | some j =>
            have hne : i ≠ j := by
              rintro rfl
              exact hcb (hslots.injective c b i hc hslot)
            rw [Option.bind_some, Option.bind_some, List.getElem?_set_ne hne]
  | node256 children =>
    obtain ⟨-, hwf', hview, hmembers⟩ := set_node256 hwf b (some child)
    exact ⟨hwf', fun x hx ↦ (hmembers x hx).imp_left Option.some.inj, fun _ ↦ trivial,
      fun _ ↦ hview⟩

/-- A table without a slice of children has no children. -/
theorem view_eq_none_of_childCount (h : layout.childCount = 0) (b : UInt8) :
    layout.view b = none := by
  cases layout with
  | node4 keys children =>
    rw [view, List.length_eq_zero_iff.mp (show children.length = 0 from h), List.zip_nil_right]
    rfl
  | node16 keys children =>
    rw [view, List.length_eq_zero_iff.mp (show children.length = 0 from h), List.zip_nil_right]
    rfl
  | node48 slots children =>
    rw [view, List.length_eq_zero_iff.mp (show children.length = 0 from h)]
    cases slots b with
    | none => rfl
    | some i => rfl
  | node256 children =>
    rw [view, List.length_eq_zero_iff.mp (show children.length = 0 from h)]
    rfl

/-- The table a branch starts from. -/
theorem wf_empty : (node4 [] [] : Layout α).Wf ∧ (node4 [] [] : Layout α).Distinct ∧
    (node4 [] [] : Layout α).view = (fun _ ↦ none) :=
  ⟨⟨rfl, by decide⟩, List.nodup_nil, rfl⟩

/-- A property of proper tables that the operations on a table keep. -/
structure Kept (P : Layout α → Prop) : Prop where
  wf : ∀ {layout : Layout α}, P layout → layout.Wf
  empty : P (node4 [] [])
  add : ∀ {layout layout' : Layout α} {b : UInt8} {child : α}, P layout →
    layout.addChild b child = .ok layout' → P layout'
  remove : ∀ {layout layout' : Layout α} {b : UInt8}, P layout →
    layout.removeChild b = .ok layout' → P layout'
  replace : ∀ {layout : Layout α} (b : UInt8) (child : α), P layout →
    P (layout.replaceChild b child)

theorem kept_wf : Kept (Wf : Layout α → Prop) where
  wf h := h
  empty := wf_empty.1
  add {_ layout' b child} h hadd := by
    obtain ⟨added, hadded, hspec⟩ := addChild_spec h b child
    rw [Except.ok.inj (hadd.symm.trans hadded)]
    exact hspec.wf
  remove {_ layout' b} h hremove := by
    obtain ⟨removed, hremoved, hspec⟩ := removeChild_spec h b
    rw [Except.ok.inj (hremove.symm.trans hremoved)]
    exact hspec.wf
  replace b child h := (replaceChild_spec h b child).wf

end FluxCache.Store.Layout
