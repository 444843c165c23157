import FluxCache.Store.SkipListInvariant

/-!
# The skip list store refines a finite map

An assignment `p.next[i] = q` changes one link and nothing else (`setNext_eq`), so the loops of
`Set` and `Del` change exactly the links of the nodes in `prev` and of the new node (`link_loop`,
`unlink_loop`). On each level this links the new node after the last node below its key, or
unlinks the node of the key, and the chains of the other levels are left alone (`Chains.insert`,
`Chains.remove`).

`Represents s m` says that the chains of the store are in order and that the nodes of level 0 hold
exactly the finite map `m`. Every call returns and keeps it for every outcome of the coin flips
(`Represents.step`).
-/

set_option autoImplicit false
set_option relaxedAutoImplicit false

namespace FluxCache.Store.SkipListChains

open FluxCache.Foundation SkipListStore

variable {heap heap' heap'' : Memory SkipNode} {s : SkipListStore} {i j k n level : ℕ}
  {p q : Pointer} {base before old after : List Pointer} {key value : GoString}
  {prev : List (Option Pointer)} {preds : ℕ → Pointer}

/-! ### Assignments to links -/

/-- Two memories with the same nodes up to their links. -/
structure SameNodes (heap heap' : Memory SkipNode) : Prop where
  used : heap'.used = heap.used
  key : ∀ p, (heap'.cell p).key = (heap.cell p).key
  value : ∀ p, (heap'.cell p).value = (heap.cell p).value
  height : ∀ p, height heap' p = height heap p

theorem SameNodes.refl (heap : Memory SkipNode) : SameNodes heap heap :=
  ⟨rfl, fun _ ↦ rfl, fun _ ↦ rfl, fun _ ↦ rfl⟩

theorem SameNodes.trans (h : SameNodes heap heap') (h' : SameNodes heap' heap'') :
    SameNodes heap heap'' :=
  ⟨h'.used.trans h.used, fun p ↦ (h'.key p).trans (h.key p),
    fun p ↦ (h'.value p).trans (h.value p), fun p ↦ (h'.height p).trans (h.height p)⟩

/-- An assignment to a link of a node that is high enough changes that link only. -/
theorem setNext_eq (hp : i < height heap p) (q : Option Pointer) :
    ∃ heap', setNext heap p i q = .ok heap' ∧ SameNodes heap heap' ∧
      ∀ j r, nextAt heap' j r = if j = i ∧ r = p then q else nextAt heap j r := by
  refine ⟨heap.write p { heap.cell p with next := (heap.cell p).next.set i q }, ?_,
    ⟨rfl, fun r ↦ ?_, fun r ↦ ?_, fun r ↦ ?_⟩, fun j r ↦ ?_⟩
  · have hlength : i < (heap.cell p).next.length := hp
    rw [setNext, setIndex, if_pos hlength]
    rfl
  · by_cases hr : r = p
    · rw [hr, Memory.cell_write_self]
    · rw [Memory.cell_write_of_ne _ _ hr]
  · by_cases hr : r = p
    · rw [hr, Memory.cell_write_self]
    · rw [Memory.cell_write_of_ne _ _ hr]
  · unfold height
    by_cases hr : r = p
    · rw [hr, Memory.cell_write_self, List.length_set]
    · rw [Memory.cell_write_of_ne _ _ hr]
  · unfold nextAt
    by_cases hr : r = p
    · rw [hr, Memory.cell_write_self]
      by_cases hj : j = i
      · rw [if_pos ⟨hj, rfl⟩, hj, List.getElem?_set_self hp, Option.getD_some]
      · rw [if_neg fun h ↦ hj h.1, List.getElem?_set_ne (Ne.symm hj)]
    · rw [Memory.cell_write_of_ne _ _ hr, if_neg fun h ↦ hr h.2]

/-- The links after the new node `n` has been linked on the levels below `k`. -/
def linkedBelow (heap : Memory SkipNode) (preds : ℕ → Pointer) (n : Pointer) (k : ℕ) (j : ℕ)
    (r : Pointer) : Option Pointer :=
  if j < k then
    if r = n then nextAt heap j (preds j) else if r = preds j then some n else nextAt heap j r
  else nextAt heap j r

/-- Assumes: on every level below `k`, `prev` has a node that is high enough and is not `n`. The
loop of `Set` links `n` after these nodes. -/
theorem link_loop (hprev : ∀ i < k, prev[i]? = some (some (preds i)))
    (hne : ∀ i < k, preds i ≠ n) (hpreds : ∀ i < k, i < height heap (preds i))
    (hn : ∀ i < k, i < height heap n) :
    ∃ heap', (List.range k).foldlM (link prev n) heap = .ok heap' ∧ SameNodes heap heap' ∧
      ∀ j r, nextAt heap' j r = linkedBelow heap preds n k j r := by
  induction k with
  | zero => exact ⟨heap, rfl, SameNodes.refl heap, fun j r ↦ rfl⟩
  | succ k ih =>
    obtain ⟨heap₁, hloop, hsame₁, hnext₁⟩ := ih (fun i hi ↦ hprev i (Nat.lt_succ_of_lt hi))
      (fun i hi ↦ hne i (Nat.lt_succ_of_lt hi)) (fun i hi ↦ hpreds i (Nat.lt_succ_of_lt hi))
      fun i hi ↦ hn i (Nat.lt_succ_of_lt hi)
    have hk := Nat.lt_succ_self k
    have hp₁ : k < height heap₁ (preds k) := by
      rw [hsame₁.height]
      exact hpreds k hk
    have hn₁ : k < height heap₁ n := by
      rw [hsame₁.height]
      exact hn k hk
    obtain ⟨heap₂, hset₂, hsame₂, hnext₂⟩ := setNext_eq hn₁ (nextAt heap₁ k (preds k))
    have hp₂ : k < height heap₂ (preds k) := by
      rw [hsame₂.height]
      exact hp₁
    obtain ⟨heap₃, hset₃, hsame₃, hnext₃⟩ := setNext_eq hp₂ (some n)
    refine ⟨heap₃, ?_, (hsame₁.trans hsame₂).trans hsame₃, fun j r ↦ ?_⟩
    · have hbody : link prev n heap₁ k = .ok heap₃ := by
        simp only [link, index_eq_ok (hprev k hk), deref, index_next hp₁, hset₂, bind,
          Except.bind]
        exact hset₃
      rw [List.range_succ, List.foldlM_append, hloop]
      simp only [List.foldlM_cons, List.foldlM_nil, bind, Except.bind, hbody]
      rfl
    · have hlevel : nextAt heap₁ k (preds k) = nextAt heap k (preds k) := by
        rw [hnext₁, linkedBelow, if_neg (lt_irrefl k)]
      rw [hnext₃, hnext₂, hlevel, hnext₁]
      unfold linkedBelow
      by_cases hj : j = k
      · subst hj
        by_cases hr : r = n
        · subst hr
          simp [(hne j hk).symm]
        · simp [hr]
      · have hiff : j < k + 1 ↔ j < k := by omega
        simp only [hj, hiff, false_and, if_false]

/-- Assumes: on every level below `k`, `prev` has a node that is high enough and is not `n`. The
loop of `Del` lets these nodes skip `n`. -/
theorem unlink_loop (hprev : ∀ i < k, prev[i]? = some (some (preds i)))
    (hne : ∀ i < k, preds i ≠ n) (hpreds : ∀ i < k, i < height heap (preds i))
    (hn : ∀ i < k, i < height heap n) :
    ∃ heap', (List.range k).foldlM (unlink prev n) heap = .ok heap' ∧ SameNodes heap heap' ∧
      ∀ j r, nextAt heap' j r =
        if j < k ∧ r = preds j then nextAt heap j n else nextAt heap j r := by
  induction k with
  | zero => exact ⟨heap, rfl, SameNodes.refl heap, fun j r ↦ by simp⟩
  | succ k ih =>
    obtain ⟨heap₁, hloop, hsame₁, hnext₁⟩ := ih (fun i hi ↦ hprev i (Nat.lt_succ_of_lt hi))
      (fun i hi ↦ hne i (Nat.lt_succ_of_lt hi)) (fun i hi ↦ hpreds i (Nat.lt_succ_of_lt hi))
      fun i hi ↦ hn i (Nat.lt_succ_of_lt hi)
    have hk := Nat.lt_succ_self k
    have hn₁ : k < height heap₁ n := by
      rw [hsame₁.height]
      exact hn k hk
    have hp₁ : k < height heap₁ (preds k) := by
      rw [hsame₁.height]
      exact hpreds k hk
    obtain ⟨heap₂, hset₂, hsame₂, hnext₂⟩ := setNext_eq hp₁ (nextAt heap₁ k n)
    refine ⟨heap₂, ?_, hsame₁.trans hsame₂, fun j r ↦ ?_⟩
    · have hbody : unlink prev n heap₁ k = .ok heap₂ := by
        simp only [unlink, index_eq_ok (hprev k hk), deref, index_next hn₁, bind, Except.bind]
        exact hset₂
      rw [List.range_succ, List.foldlM_append, hloop]
      simp only [List.foldlM_cons, List.foldlM_nil, bind, Except.bind, hbody]
      rfl
    · have hlevel : nextAt heap₁ k n = nextAt heap k n := by
        rw [hnext₁, if_neg fun h ↦ lt_irrefl k h.1]
      rw [hnext₂, hlevel, hnext₁]
      by_cases hj : j = k
      · subst hj
        simp
      · have hiff : j < k + 1 ↔ j < k := by omega
        simp only [hj, hiff, false_and, if_false]

/-! ### Changes of the base -/

theorem tower_congr (hheight : ∀ p ∈ base, height heap' p = height heap p) :
    tower heap' i base = tower heap i base :=
  List.filter_congr fun p hp ↦ by rw [hheight p hp]

theorem Chains.lastBefore_lt_used (hs : Chains s (before ++ after)) (i : ℕ) :
    lastBefore s before i < s.heap.used := by
  refine hs.lt_used _ ?_
  rcases List.mem_cons.mp (lastBefore_mem s before i) with hmem | hmem
  · rw [hmem]
    exact List.mem_cons_self
  · exact List.mem_cons_of_mem _ (List.mem_append_left _ (mem_tower.mp hmem).1)

/-- Above the levels in use the last node below a key is the head. -/
theorem Chains.lastBefore_eq_head (hs : Chains s (before ++ after)) (hi : s.level ≤ i) :
    lastBefore s before i = s.head := by
  have hempty : tower s.heap i before = [] := by
    refine List.filter_eq_nil_iff.mpr fun p hp ↦ ?_
    rw [decide_eq_true_eq, not_lt]
    exact (hs.height_le p (List.mem_append_left _ hp)).trans hi
  simp only [lastBefore, hempty, List.getLast_singleton]

/-- The chain of a level, cut after the last node below the key. -/
theorem Chains.exists_cut (hs : Chains s (before ++ after)) (hi : i < skipMaxLevel) :
    ∃ front, s.head :: tower s.heap i before = front ++ [lastBefore s before i] ∧
      Linked (nextAt s.heap i) (front ++ lastBefore s before i :: tower s.heap i after) ∧
      (front ++ lastBefore s before i :: tower s.heap i after).Nodup ∧
      ∀ q ∈ front ++ lastBefore s before i :: tower s.heap i after, q < s.heap.used := by
  obtain ⟨front, hfront⟩ := exists_front_lastBefore s before i
  have hchain : s.head :: tower s.heap i (before ++ after) =
      front ++ lastBefore s before i :: tower s.heap i after := by
    rw [tower_append, ← List.cons_append, hfront, List.append_assoc, List.singleton_append]
  have hsub : (s.head :: tower s.heap i (before ++ after)).Sublist (s.head :: (before ++ after)) :=
    List.Sublist.cons_cons _ List.filter_sublist
  refine ⟨front, hfront, ?_, ?_, ?_⟩
  · rw [← hchain]
    exact hs.linked i hi
  · rw [← hchain]
    exact hs.nodup.sublist hsub
  · rw [← hchain]
    exact fun q hq ↦ hs.lt_used q (hsub.subset hq)

section Insert

variable (hs : Chains s (before ++ after)) (hsite : Site s.heap key before [] after)
  (hpos : 0 < level) (hle : level ≤ skipMaxLevel)
  (hsame : SameNodes (s.heap.alloc ⟨key, value, List.replicate level none⟩) heap')
  (hnext : ∀ j r, nextAt heap' j r =
    linkedBelow (s.heap.alloc ⟨key, value, List.replicate level none⟩) (lastBefore s before)
      s.heap.used level j r)

include hsame in
theorem height_insert_new : height heap' s.heap.used = level := by
  rw [hsame.height, height, Memory.cell_alloc_used, List.length_replicate]

include hsame in
theorem height_insert_old (hp : p < s.heap.used) : height heap' p = height s.heap p := by
  rw [hsame.height, height, Memory.cell_alloc_of_lt _ _ hp, height]

theorem nextAt_alloc (hp : p < s.heap.used) (cell : SkipNode) :
    nextAt (s.heap.alloc cell) j p = nextAt s.heap j p := by
  rw [nextAt, Memory.cell_alloc_of_lt _ _ hp, nextAt]

include hs hnext in
/-- The links of the old nodes after the insertion. -/
theorem linked_insert (hi : i < skipMaxLevel)
    (hbefore : tower heap' i before = tower s.heap i before)
    (hafter : tower heap' i after = tower s.heap i after)
    (hnew : height heap' s.heap.used = level) :
    Linked (nextAt heap' i) (s.head :: tower heap' i (before ++ s.heap.used :: after)) := by
  obtain ⟨front, hfront, hlinked, hnodup, hlt⟩ := hs.exists_cut hi
  have hpred := hs.lastBefore_lt_used i
  by_cases hlevel : i < level
  · have htower : tower heap' i (s.heap.used :: after) = s.heap.used :: tower s.heap i after := by
      rw [← hafter]
      exact List.filter_cons_of_pos (decide_eq_true (by rw [hnew]; exact hlevel))
    rw [tower_append, htower, hbefore, ← List.cons_append, hfront, List.append_assoc,
      List.singleton_append]
    refine hlinked.insert_after hnodup ?_ ?_ fun q hq hne ↦ ?_
    · rw [hnext, linkedBelow, if_pos hlevel, if_pos rfl, nextAt_alloc hpred]
    · rw [hnext, linkedBelow, if_pos hlevel, if_neg (Nat.ne_of_lt hpred), if_pos rfl]
    · rw [hnext, linkedBelow, if_pos hlevel, if_neg (Nat.ne_of_lt (hlt q hq)), if_neg hne,
        nextAt_alloc (hlt q hq)]
  · have htower : tower heap' i (s.heap.used :: after) = tower s.heap i after := by
      rw [← hafter]
      exact List.filter_cons_of_neg (by rw [hnew, decide_eq_true_eq]; exact hlevel)
    rw [tower_append, htower, hbefore, ← List.cons_append, hfront, List.append_assoc,
      List.singleton_append]
    refine hlinked.congr fun q hq ↦ ?_
    rw [hnext, linkedBelow, if_neg hlevel, nextAt_alloc (hlt q hq)]

include hs hsite hpos hle hsame hnext in
/-- Linking a new node after the last nodes below its key keeps the chains. -/
theorem Chains.insert :
    Chains { s with heap := heap', level := max s.level level }
      (before ++ s.heap.used :: after) := by
  have hold : ∀ p ∈ s.head :: (before ++ after), height heap' p = height s.heap p := fun p hp ↦
    height_insert_old hsame (hs.lt_used p hp)
  have hkey : ∀ p < s.heap.used, (heap'.cell p).key = (s.heap.cell p).key := by
    intro p hp
    rw [hsame.key, Memory.cell_alloc_of_lt _ _ hp]
  have hnew := height_insert_new hsame
  have hkeyNew : (heap'.cell s.heap.used).key = key := by
    rw [hsame.key, Memory.cell_alloc_used]
  have hmem : ∀ p ∈ before ++ s.heap.used :: after, p = s.heap.used ∨ p ∈ before ++ after := by
    intro p hp
    simp only [List.mem_cons, List.mem_append] at hp ⊢
    tauto
  have hbase : ∀ p ∈ before ++ after, (heap'.cell p).key = (s.heap.cell p).key := fun p hp ↦
    hkey p (hs.lt_used p (List.mem_cons_of_mem _ hp))
  refine
    { nodup := ?_
      lt_used := ?_
      head_height := (hold s.head List.mem_cons_self).trans hs.head_height
      height_pos := ?_
      height_le := ?_
      level_pos := hs.level_pos.trans_le (le_max_left _ _)
      level_le := max_le hs.level_le hle
      linked := ?_
      sorted := ?_ }
  · rw [← List.cons_append]
    refine List.nodup_middle.mpr (List.nodup_cons.mpr ⟨fun hp ↦ ?_, hs.nodup⟩)
    exact lt_irrefl _ (hs.lt_used _ hp)
  · intro p hp
    show p < heap'.used
    rw [hsame.used, Memory.used_alloc]
    rcases List.mem_cons.mp hp with rfl | hp
    · exact Nat.lt_succ_of_lt (hs.lt_used _ List.mem_cons_self)
    rcases hmem p hp with rfl | hp
    · exact Nat.lt_succ_self _
    · exact Nat.lt_succ_of_lt (hs.lt_used p (List.mem_cons_of_mem _ hp))
  · intro p hp
    rcases hmem p hp with rfl | hp
    · exact hpos.trans_eq hnew.symm
    · exact (hs.height_pos p hp).trans_eq (hold p (List.mem_cons_of_mem _ hp)).symm
  · intro p hp
    rcases hmem p hp with rfl | hp
    · exact hnew.trans_le (le_max_right _ _)
    · exact (hold p (List.mem_cons_of_mem _ hp)).trans_le
        ((hs.height_le p hp).trans (le_max_left _ _))
  · exact fun i hi ↦ linked_insert hs hnext hi
      (tower_congr fun p hp ↦ hold p (by simp [hp])) (tower_congr fun p hp ↦ hold p (by simp [hp]))
      hnew
  · obtain ⟨hbefore, hafter, hcross⟩ := List.pairwise_append.mp hs.sorted
    show (before ++ s.heap.used :: after).Pairwise
      fun p q ↦ (heap'.cell p).key < (heap'.cell q).key
    refine List.pairwise_append.mpr ⟨hbefore.imp_of_mem fun {p q} hp hq hpq ↦ ?_,
      List.pairwise_cons.mpr ⟨fun q hq ↦ ?_, hafter.imp_of_mem fun {p q} hp hq hpq ↦ ?_⟩,
      fun p hp q hq ↦ ?_⟩
    · rw [hbase p (by simp [hp]), hbase q (by simp [hq])]
      exact hpq
    · rw [hkeyNew, hbase q (by simp [hq])]
      exact hsite.lt_after q hq
    · rw [hbase p (by simp [hp]), hbase q (by simp [hq])]
      exact hpq
    · rw [hbase p (by simp [hp])]
      rcases List.mem_cons.mp hq with rfl | hq
      · rw [hkeyNew]
        exact hsite.before_lt p hp
      · rw [hbase q (by simp [hq])]
        exact hcross p hp q hq

end Insert

/-- Letting the last nodes below a node skip it keeps the chains. -/
theorem Chains.remove (hs : Chains s (before ++ n :: after)) (hsame : SameNodes s.heap heap')
    (hnext : ∀ j r, nextAt heap' j r = if j < height s.heap n ∧ r = lastBefore s before j then
      nextAt s.heap j n else nextAt s.heap j r) (hashes : Hashes) :
    Chains { s with heap := heap', hashes := hashes } (before ++ after) := by
  have hsub : (before ++ after).Sublist (before ++ n :: after) :=
    List.Sublist.append_left (List.sublist_cons_self n after) before
  refine
    { nodup := hs.nodup.sublist (List.Sublist.cons_cons _ hsub)
      lt_used := fun p hp ↦ ?_
      head_height := (hsame.height s.head).trans hs.head_height
      height_pos := fun p hp ↦ (hs.height_pos p (hsub.subset hp)).trans_eq (hsame.height p).symm
      height_le := fun p hp ↦ (hsame.height p).trans_le (hs.height_le p (hsub.subset hp))
      level_pos := hs.level_pos
      level_le := hs.level_le
      linked := fun i hi ↦ ?_
      sorted := ?_ }
  · show p < heap'.used
    rw [hsame.used]
    exact hs.lt_used p ((List.Sublist.cons_cons _ hsub).subset hp)
  · obtain ⟨front, hfront, hlinked, hnodup, -⟩ := hs.exists_cut hi
    show Linked (nextAt heap' i) (s.head :: tower heap' i (before ++ after))
    rw [tower_congr fun p _ ↦ hsame.height p, tower_append, ← List.cons_append, hfront,
      List.append_assoc, List.singleton_append]
    by_cases hlevel : i < height s.heap n
    · have htower : tower s.heap i (n :: after) = n :: tower s.heap i after :=
        List.filter_cons_of_pos (decide_eq_true hlevel)
      rw [htower] at hlinked hnodup
      refine hlinked.unlink_after hnodup ?_ fun q _ hne ↦ ?_
      · rw [hnext, if_pos ⟨hlevel, rfl⟩]
      · rw [hnext, if_neg fun h ↦ hne h.2]
    · have htower : tower s.heap i (n :: after) = tower s.heap i after :=
        List.filter_cons_of_neg (by rw [decide_eq_true_eq]; exact hlevel)
      rw [htower] at hlinked
      refine hlinked.congr fun q _ ↦ ?_
      rw [hnext, if_neg fun h ↦ hlevel h.1]
  · show (before ++ after).Pairwise fun p q ↦ (heap'.cell p).key < (heap'.cell q).key
    refine (hs.sorted.sublist hsub).imp fun {p q} hpq ↦ ?_
    rw [hsame.key, hsame.key]
    exact hpq

/-- Assumes: a memory with the same keys and links. -/
theorem Chains.congr (hs : Chains s base) (heap' : Memory SkipNode)
    (hused : heap'.used = s.heap.used)
    (hkey : ∀ p, (heap'.cell p).key = (s.heap.cell p).key)
    (hnext : ∀ p, (heap'.cell p).next = (s.heap.cell p).next) (hashes : Hashes) :
    Chains { s with heap := heap', hashes := hashes } base := by
  have hheight : ∀ p, height heap' p = height s.heap p := fun p ↦ by
    rw [height, hnext, height]
  refine
    { nodup := hs.nodup
      lt_used := fun p hp ↦ (hs.lt_used p hp).trans_eq hused.symm
      head_height := (hheight s.head).trans hs.head_height
      height_pos := fun p hp ↦ (hs.height_pos p hp).trans_eq (hheight p).symm
      height_le := fun p hp ↦ (hheight p).trans_le (hs.height_le p hp)
      level_pos := hs.level_pos
      level_le := hs.level_le
      linked := fun i hi ↦ ?_
      sorted := hs.sorted.imp fun {p q} hpq ↦ ?_ }
  · show Linked (nextAt heap' i) (s.head :: tower heap' i base)
    rw [tower_congr fun p _ ↦ hheight p]
    refine (hs.linked i hi).congr fun p _ ↦ ?_
    rw [nextAt, hnext, nextAt]
  · show (heap'.cell p).key < (heap'.cell q).key
    rw [hkey, hkey]
    exact hpq

/-! ### What a store represents -/

/-- The entries of nodes. -/
def entries (heap : Memory SkipNode) (base : List Pointer) : List (GoString × GoString) :=
  base.map fun p ↦ ((heap.cell p).key, (heap.cell p).value)

/-- The chains of the store are in order and the nodes of level 0 hold exactly a finite map. -/
def Represents (s : SkipListStore) (m : GoMap GoString) : Prop :=
  ∃ base, Chains s base ∧ Holds (entries s.heap base) m

theorem entries_congr (hkey : ∀ p ∈ base, (heap'.cell p).key = (heap.cell p).key)
    (hvalue : ∀ p ∈ base, (heap'.cell p).value = (heap.cell p).value) :
    entries heap' base = entries heap base :=
  List.map_congr_left fun p hp ↦ by rw [hkey p hp, hvalue p hp]

/-- Assumes: entries of the base that hold a map. The entries a call leaves at the place of its key
hold the map after the call. -/
theorem Site.holds_edited (op : StringOp) {m : GoMap GoString}
    (hsite : Site s.heap op.key before old after)
    (hm : Holds (entries s.heap (before ++ (old ++ after))) m) :
    Holds (edited op (entries s.heap before) (entries s.heap after)) (op.apply m) := by
  have hsplit : entries s.heap (before ++ (old ++ after)) =
      entries s.heap before ++ entries s.heap old ++ entries s.heap after := by
    simp [entries]
  rw [hsplit] at hm
  refine hm.edited (fun x hx ↦ ?_) (fun x hx ↦ ?_) fun x hx ↦ ?_
  · obtain ⟨p, hp, rfl⟩ := List.mem_map.mp hx
    exact hsite.old_eq p hp
  · obtain ⟨p, hp, rfl⟩ := List.mem_map.mp hx
    exact hsite.before_lt p hp
  · obtain ⟨p, hp, rfl⟩ := List.mem_map.mp hx
    exact hsite.lt_after p hp

/-- `Get` returns what the map holds. -/
theorem Represents.get_eq {m : GoMap GoString} (hs : Represents s m) (key : GoString) :
    s.get key = .ok (commaOk (m.lookup key)) := by
  obtain ⟨base, hchains, hm⟩ := hs
  obtain ⟨before, old, after, rfl, hsite, hold⟩ := hchains.exists_site key
  simp only [SkipListStore.get, hchains.seek_top hsite, hchains.nodeWithKey_eq hsite hold, bind,
    Except.bind, pure, Except.pure]
  rcases hold with rfl | ⟨n, rfl⟩
  · have hnone : m.lookup key = none := by
      refine Option.eq_none_iff_forall_ne_some.mpr fun v hv ↦ ?_
      obtain ⟨p, hp, hentry⟩ := List.mem_map.mp ((hm key v).mpr hv)
      have hkey : (s.heap.cell p).key = key := (Prod.mk.inj hentry).1
      rcases List.mem_append.mp hp with hp | hp
      · exact absurd hkey (hsite.before_lt p hp).ne
      · exact absurd hkey (hsite.lt_after p hp).ne'
    rw [hnone]
    rfl
  · have hvalue : m.lookup key = some (s.heap.cell n).value := by
      refine (hm key _).mp (List.mem_map.mpr ⟨n, by simp, ?_⟩)
      rw [hsite.old_eq n List.mem_cons_self]
    rw [hvalue]
    rfl

/-! ### The calls -/

theorem Chains.lastBefore_ne (hs : Chains s (before ++ n :: after)) (i : ℕ) :
    lastBefore s before i ≠ n := by
  have hnotMem := (List.nodup_cons.mp (List.nodup_middle.mp
    (show ((s.head :: before) ++ n :: after).Nodup from hs.nodup))).1
  intro heq
  have hmem := lastBefore_mem s before i
  rw [heq] at hmem
  refine hnotMem (List.mem_append_left _ ?_)
  exact (List.Sublist.cons_cons s.head List.filter_sublist).subset hmem

/-- `Del` returns and keeps the relation. -/
theorem Represents.del {m : GoMap GoString} (hs : Represents s m) (key : GoString) :
    ∃ s', s.del key = .ok s' ∧ Represents s' (StringOp.apply m (.del key)) := by
  obtain ⟨base, hchains, hm⟩ := hs
  obtain ⟨before, old, after, rfl, hsite, hold⟩ := hchains.exists_site key
  obtain ⟨prev, hfind, -, hprev⟩ := hchains.findPrev_top hsite
  have hedited := Site.holds_edited (.del key) hsite hm
  have hentries : edited (.del key) (entries s.heap before) (entries s.heap after) =
      entries s.heap (before ++ after) := by
    simp [edited, StringOp.written, entries]
  rw [hentries] at hedited
  simp only [SkipListStore.del, hfind, hchains.nodeWithKey_eq hsite hold, bind, Except.bind, pure,
    Except.pure]
  rcases hold with rfl | ⟨n, rfl⟩
  · exact ⟨_, rfl, before ++ after, hchains.congr s.heap rfl (fun _ ↦ rfl) (fun _ ↦ rfl) _, hedited⟩
  · have hheight : height s.heap n ≤ s.level := hchains.height_le n (by simp)
    have hhigh : ∀ i < height s.heap n, i < height s.heap (lastBefore s before i) := by
      intro i hi
      exact hchains.lt_height ((hi.trans_le hheight).trans_le hchains.level_le)
        (lastBefore_mem s before i)
    obtain ⟨heap', hloop, hsame, hnext⟩ := unlink_loop
      (fun i hi ↦ hprev i (hi.trans_le hheight)) (fun i _ ↦ hchains.lastBefore_ne i) hhigh
      fun i hi ↦ hi
    have hloop' : (List.range (s.heap.cell n).next.length).foldlM (unlink prev n) s.heap =
      .ok heap' := hloop
    simp only [List.head?_cons, hloop']
    refine ⟨_, rfl, before ++ after, hchains.remove hsame hnext _, ?_⟩
    rw [entries_congr (fun p _ ↦ hsame.key p) fun p _ ↦ hsame.value p]
    exact hedited

/-- The loop of `Set` that fills `prev` above the levels in use. -/
theorem fill_loop (head : Pointer) (count : ℕ) {start : ℕ}
    (hle : start + count ≤ prev.length) :
    ∃ prev', (List.range' start count).foldlM (fun prev i ↦ setIndex prev i (some head)) prev =
        (.ok prev' : Outcome _) ∧ prev'.length = prev.length ∧
      ∀ j, prev'[j]? = if start ≤ j ∧ j < start + count then some (some head) else prev[j]? := by
  induction count generalizing start prev with
  | zero => exact ⟨prev, rfl, rfl, fun j ↦ by rw [if_neg (by omega)]⟩
  | succ count ih =>
    have hstart : start < prev.length := by omega
    have hlength : (prev.set start (some head)).length = prev.length := List.length_set
    have hbound : start + 1 + count ≤ (prev.set start (some head)).length := by omega
    obtain ⟨prev', hloop, hlength', hget⟩ := ih hbound
    refine ⟨prev', ?_, hlength'.trans hlength, fun j ↦ ?_⟩
    · rw [List.range'_succ, List.foldlM_cons]
      simp only [setIndex, if_pos hstart, bind, Except.bind]
      exact hloop
    · rw [hget]
      by_cases hj : j = start
      · rw [hj, if_neg (by omega), if_pos (by omega), List.getElem?_set_self hstart]
      · rw [List.getElem?_set_ne (Ne.symm hj)]
        by_cases hin : start ≤ j ∧ j < start + (count + 1)
        · rw [if_pos hin, if_pos (by omega)]
        · rw [if_neg hin, if_neg (by omega)]

/-- `Set` of a key that has no node returns and keeps the relation. -/
theorem Chains.set_new {m : GoMap GoString} (hs : Chains s (before ++ after))
    (hsite : Site s.heap key before [] after) (hm : Holds (entries s.heap (before ++ after)) m)
    (coins : Coins) (value : GoString) :
    ∃ s', s.set coins key value = .ok s' ∧ Represents s' (StringOp.apply m (.set key value)) := by
  have hnone : Chains s (before ++ ([] ++ after)) := hs
  obtain ⟨hpos, hle⟩ := skipLevel_bounds coins
  obtain ⟨prev, hfind, hlength, hprev⟩ := hs.findPrev_top hsite
  have hbound : s.level + (skipLevel coins - s.level) ≤ prev.length := by
    rw [hlength]
    have := hs.level_le
    omega
  obtain ⟨prev', hfill, -, hget⟩ := fill_loop s.head _ hbound
  have hpreds : ∀ i < skipLevel coins, prev'[i]? = some (some (lastBefore s before i)) := by
    intro i hi
    rw [hget]
    by_cases hnew : s.level ≤ i
    · rw [if_pos ⟨hnew, by omega⟩, hs.lastBefore_eq_head hnew]
    · rw [if_neg fun h ↦ hnew h.1, hprev i (not_le.mp hnew)]
  have hne : ∀ i < skipLevel coins, lastBefore s before i ≠ s.heap.used := fun i _ ↦
    Nat.ne_of_lt (hs.lastBefore_lt_used i)
  have hold : ∀ i < skipLevel coins, i < height
      (s.heap.alloc ⟨key, value, List.replicate (skipLevel coins) none⟩)
      (lastBefore s before i) := by
    intro i hi
    rw [height, Memory.cell_alloc_of_lt _ _ (hs.lastBefore_lt_used i)]
    exact hnone.lt_height (hi.trans_le hle) (lastBefore_mem s before i)
  have hnew : ∀ i < skipLevel coins, i < height
      (s.heap.alloc ⟨key, value, List.replicate (skipLevel coins) none⟩) s.heap.used := by
    intro i hi
    rw [height, Memory.cell_alloc_used, List.length_replicate]
    exact hi
  obtain ⟨heap', hloop, hsame, hnext⟩ := link_loop hpreds hne hold hnew
  refine ⟨{ s with heap := heap', level := max s.level (skipLevel coins) }, ?_,
    before ++ s.heap.used :: after, hs.insert hsite hpos hle hsame hnext, ?_⟩
  · have hfound := hnone.nodeWithKey_eq hsite (Or.inl rfl)
    simp only [SkipListStore.set, hfind, hfound, List.head?_nil, bind, Except.bind, hfill, hloop]
    rfl
  · have hedited := Site.holds_edited (.set key value) hsite hm
    have hkeep : ∀ p ∈ before ++ after, (heap'.cell p).key = (s.heap.cell p).key ∧
        (heap'.cell p).value = (s.heap.cell p).value := by
      intro p hp
      rw [hsame.key, hsame.value,
        Memory.cell_alloc_of_lt _ _ (hs.lt_used p (List.mem_cons_of_mem _ hp))]
      exact ⟨rfl, rfl⟩
    have hentries : entries heap' (before ++ s.heap.used :: after) =
        edited (.set key value) (entries s.heap before) (entries s.heap after) := by
      have hentry : ((heap'.cell s.heap.used).key, (heap'.cell s.heap.used).value) =
          (key, value) := by
        rw [hsame.key, hsame.value, Memory.cell_alloc_used]
      rw [← entries_congr (fun p hp ↦ (hkeep p (List.mem_append_left _ hp)).1) fun p hp ↦
          (hkeep p (List.mem_append_left _ hp)).2,
        ← entries_congr (fun p hp ↦ (hkeep p (List.mem_append_right _ hp)).1) fun p hp ↦
          (hkeep p (List.mem_append_right _ hp)).2]
      simp [entries, edited, StringOp.written, StringOp.key, hentry]
    rw [hentries]
    exact hedited

/-- `Set` of a key that has a node returns and keeps the relation. -/
theorem Chains.set_old {m : GoMap GoString} (hs : Chains s (before ++ n :: after))
    (hsite : Site s.heap key before [n] after)
    (hm : Holds (entries s.heap (before ++ n :: after)) m) (coins : Coins) (value : GoString) :
    ∃ s', s.set coins key value = .ok s' ∧ Represents s' (StringOp.apply m (.set key value)) := by
  obtain ⟨prev, hfind, -, -⟩ := hs.findPrev_top hsite
  have hfound := hs.nodeWithKey_eq hsite (Or.inr ⟨n, rfl⟩)
  have hcell : ∀ p ≠ n, (s.heap.write n { s.heap.cell n with value := value }).cell p =
      s.heap.cell p := fun p hp ↦ Memory.cell_write_of_ne _ _ hp
  refine ⟨{ s with heap := s.heap.write n { s.heap.cell n with value := value } }, ?_,
    before ++ n :: after,
    hs.congr (s.heap.write n { s.heap.cell n with value := value }) rfl (fun p ↦ ?_) (fun p ↦ ?_)
      s.hashes, ?_⟩
  · simp only [SkipListStore.set, hfind, hfound, List.head?_cons, bind, Except.bind]
    rfl
  · by_cases hp : p = n
    · rw [hp, Memory.cell_write_self]
    · rw [hcell p hp]
  · by_cases hp : p = n
    · rw [hp, Memory.cell_write_self]
    · rw [hcell p hp]
  · have hedited := Site.holds_edited (.set key value) hsite hm
    have hne : ∀ p ∈ before ++ after, p ≠ n := by
      rintro p hp rfl
      exact (List.nodup_cons.mp (List.nodup_middle.mp (List.nodup_cons.mp hs.nodup).2)).1 hp
    have hentries : entries (s.heap.write n { s.heap.cell n with value := value })
          (before ++ n :: after) =
        edited (.set key value) (entries s.heap before) (entries s.heap after) := by
      rw [← entries_congr
          (fun p hp ↦ congrArg SkipNode.key (hcell p (hne p (List.mem_append_left _ hp))))
          fun p hp ↦ congrArg SkipNode.value (hcell p (hne p (List.mem_append_left _ hp))),
        ← entries_congr
          (fun p hp ↦ congrArg SkipNode.key (hcell p (hne p (List.mem_append_right _ hp))))
          fun p hp ↦ congrArg SkipNode.value (hcell p (hne p (List.mem_append_right _ hp)))]
      simp [entries, edited, StringOp.written, StringOp.key, hsite.old_eq n List.mem_cons_self]
    rw [hentries]
    exact hedited

theorem Represents.set {m : GoMap GoString} (hs : Represents s m) (coins : Coins)
    (key value : GoString) :
    ∃ s', s.set coins key value = .ok s' ∧ Represents s' (StringOp.apply m (.set key value)) := by
  obtain ⟨base, hchains, hm⟩ := hs
  obtain ⟨before, old, after, rfl, hsite, rfl | ⟨n, rfl⟩⟩ := hchains.exists_site key
  · exact Chains.set_new hchains hsite hm coins value
  · exact Chains.set_old hchains hsite hm coins value

theorem Represents.step {m : GoMap GoString} (hs : Represents s m) (coins : Coins)
    (op : StringOp) : ∃ s', s.step coins op = .ok s' ∧ Represents s' (op.apply m) := by
  cases op with
  | set key value => exact hs.set coins key value
  | del key => exact hs.del key

/-- Every history of calls returns and keeps the relation, whatever the flips are. -/
theorem Represents.run {m : GoMap GoString} (hs : Represents s m) (coins : ℕ → Coins)
    (ops : List StringOp) :
    ∃ s', s.run coins ops = .ok s' ∧ Represents s' (ops.foldl StringOp.apply m) := by
  induction ops generalizing s m coins with
  | nil => exact ⟨s, rfl, hs⟩
  | cons op ops ih =>
    obtain ⟨s₁, hstep, hs₁⟩ := hs.step (coins 0) op
    obtain ⟨s₂, hrun, hs₂⟩ := ih hs₁ fun n ↦ coins (n + 1)
    refine ⟨s₂, ?_, hs₂⟩
    rw [SkipListStore.run, hstep]
    exact hrun

/-- The fresh store represents the empty map. -/
theorem represents_new : Represents SkipListStore.new ∅ := by
  have hcell : SkipListStore.new.heap.cell 0 = ⟨[], [], List.replicate skipMaxLevel none⟩ :=
    Memory.cell_alloc_used _ _
  have hhead : SkipListStore.new.head = 0 := rfl
  refine ⟨[],
    { nodup := List.nodup_singleton _
      lt_used := fun p hp ↦ ?_
      head_height := ?_
      height_pos := by simp
      height_le := by simp
      level_pos := Nat.one_pos
      level_le := by decide
      linked := fun i hi ↦ ?_
      sorted := List.Pairwise.nil }, fun k v ↦ ?_⟩
  · rw [List.mem_singleton.mp hp]
    exact Nat.one_pos
  · rw [hhead, height, hcell, List.length_replicate]
  · show nextAt SkipListStore.new.heap i 0 = none
    rw [nextAt, hcell, List.getElem?_replicate_of_lt hi, Option.getD_some]
  · simp [entries]

/-! ### The chains of every level -/

/-- The nodes met from the head on level `i`. -/
def chainFrom (s : SkipListStore) (i : ℕ) : Outcome (List Pointer) :=
  follow (nextAt s.heap i) s.heap.used (nextAt s.heap i s.head)

/-- Following the links of a level from the head visits the nodes that are higher than the
level. -/
theorem Chains.chainFrom_eq (hs : Chains s base) (hi : i < skipMaxLevel) :
    chainFrom s i = .ok (tower s.heap i base) := by
  have hlinked := hs.linked i hi
  have hnext : nextAt s.heap i s.head = (tower s.heap i base).head? :=
    Linked.next_eq (show Linked _ ([] ++ s.head :: tower s.heap i base) from hlinked)
  rw [chainFrom, hnext]
  refine follow_eq hlinked.tail (length_le_of_nodup ?_ fun p hp ↦ ?_)
  · exact (List.nodup_cons.mp hs.nodup).2.sublist List.filter_sublist
  · exact hs.lt_used p (List.mem_cons_of_mem _ (mem_tower.mp hp).1)

/-- The skip list store refines the plain finite map for every outcome of the coin flips. Every
history of `Set` and `Del` calls returns, so no call dereferences a nil entry of `prev`; `Get`
agrees with the plain map of the history, and hence with every other run of it; and on each level
in use the chain from the head is strictly increasing and consists of exactly the nodes of level 0
that are higher than the level. -/
theorem skipList_refines_map (ops : List StringOp) (coins coins' : ℕ → Coins) :
    ∃ s s', SkipListStore.new.run coins ops = .ok s ∧ SkipListStore.new.run coins' ops = .ok s' ∧
      (∀ k, s.get k = .ok (commaOk ((plainMap ops).lookup k)) ∧ s'.get k = s.get k) ∧
      ∃ base, chainFrom s 0 = .ok base ∧
        ∀ i < s.level, ∃ chain, chainFrom s i = .ok chain ∧
          chain = base.filter (fun p ↦ i < (s.heap.cell p).next.length) ∧
          chain.Pairwise fun p q ↦ (s.heap.cell p).key < (s.heap.cell q).key := by
  obtain ⟨s, hrun, hs⟩ := represents_new.run coins ops
  obtain ⟨s', hrun', hs'⟩ := represents_new.run coins' ops
  refine ⟨s, s', hrun, hrun', fun k ↦ ⟨hs.get_eq k, (hs'.get_eq k).trans (hs.get_eq k).symm⟩, ?_⟩
  obtain ⟨base, hchains, -⟩ := hs
  have hzero : tower s.heap 0 base = base :=
    List.filter_eq_self.mpr fun p hp ↦ decide_eq_true (hchains.height_pos p hp)
  refine ⟨base, ?_, fun i hi ↦ ⟨tower s.heap i base, ?_, rfl, ?_⟩⟩
  · rw [hchains.chainFrom_eq (by decide), hzero]
  · exact hchains.chainFrom_eq (hi.trans_le hchains.level_le)
  · exact hchains.sorted.sublist List.filter_sublist

end FluxCache.Store.SkipListChains
