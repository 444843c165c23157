import FluxCache.Foundation.Search
import FluxCache.Store.SkipList

/-!
# The chains of the skip list and its search

`Chains s base` is the invariant of the store: `base` is the chain of level 0 after the head, in
key order, and on every level the head is followed by exactly the nodes of `base` that are higher
than the level (`tower`). The number of levels in use bounds the heights.

A key splits `base` into the nodes below it and the others. On every level the search stops at the
last node of the tower below the key, or at the head (`lastBefore`), whatever node of that tower it
starts from (`Chains.advance_eq`). So the descent ends at the last node below the key on level 0
and finds the node of the key after it (`Chains.findPrev_eq`, `Chains.nodeWithKey_eq`).
-/

set_option autoImplicit false
set_option relaxedAutoImplicit false

namespace FluxCache.Store.SkipListChains

open FluxCache.Foundation SkipListStore

variable {heap heap' : Memory SkipNode} {s : SkipListStore} {i j n : ℕ} {p q curr : Pointer}
  {base before old after : List Pointer} {key : GoString}

/-! ### Levels of draws -/

theorem skipLevelFrom_bounds (coins : Coins) (level : ℕ) (hlevel : level ≤ skipMaxLevel) :
    level ≤ skipLevelFrom coins level ∧ skipLevelFrom coins level ≤ skipMaxLevel := by
  induction level using skipLevelFrom.induct coins with
  | case1 level hgo ih =>
    rw [skipLevelFrom, if_pos hgo]
    obtain ⟨hlower, hupper⟩ := ih hgo.1
    exact ⟨(Nat.le_succ level).trans hlower, hupper⟩
  | case2 level hstop =>
    rw [skipLevelFrom, if_neg hstop]
    exact ⟨le_rfl, hlevel⟩

/-- `skipLevel` returns a level between 1 and the highest one. -/
theorem skipLevel_bounds (coins : Coins) :
    0 < skipLevel coins ∧ skipLevel coins ≤ skipMaxLevel :=
  skipLevelFrom_bounds coins 1 (by decide)

/-! ### The chains -/

/-- The number of `next` pointers of a node. -/
def height (heap : Memory SkipNode) (p : Pointer) : ℕ := (heap.cell p).next.length

/-- The node after `p` on level `i`. -/
def nextAt (heap : Memory SkipNode) (i : ℕ) (p : Pointer) : Option Pointer :=
  ((heap.cell p).next[i]?).getD none

/-- The nodes that are higher than a level. -/
def tower (heap : Memory SkipNode) (i : ℕ) (base : List Pointer) : List Pointer :=
  base.filter fun p ↦ i < height heap p

/-- The invariant of the store with the given nodes on level 0. -/
structure Chains (s : SkipListStore) (base : List Pointer) : Prop where
  nodup : (s.head :: base).Nodup
  lt_used : ∀ p ∈ s.head :: base, p < s.heap.used
  head_height : height s.heap s.head = skipMaxLevel
  height_pos : ∀ p ∈ base, 0 < height s.heap p
  height_le : ∀ p ∈ base, height s.heap p ≤ s.level
  level_pos : 0 < s.level
  level_le : s.level ≤ skipMaxLevel
  linked : ∀ i < skipMaxLevel, Linked (nextAt s.heap i) (s.head :: tower s.heap i base)
  sorted : base.Pairwise fun p q ↦ (s.heap.cell p).key < (s.heap.cell q).key

theorem index_next (hp : i < height heap p) :
    index (heap.cell p).next i = .ok (nextAt heap i p) := by
  refine index_eq_ok ?_
  rw [nextAt, List.getElem?_eq_getElem hp, Option.getD_some]

theorem mem_tower : p ∈ tower heap i base ↔ p ∈ base ∧ i < height heap p := by
  simp [tower]

theorem mem_tower_of_succ {head : Pointer} (hp : p ∈ head :: tower heap (i + 1) base) :
    p ∈ head :: tower heap i base := by
  rw [List.mem_cons, mem_tower] at hp ⊢
  exact hp.imp_right fun hmem ↦ ⟨hmem.1, Nat.lt_of_succ_lt hmem.2⟩

theorem tower_append (heap : Memory SkipNode) (i : ℕ) (left right : List Pointer) :
    tower heap i (left ++ right) = tower heap i left ++ tower heap i right :=
  List.filter_append ..

/-- The last node of a part of the base on level `i`, or the head when there is none. -/
def lastBefore (s : SkipListStore) (before : List Pointer) (i : ℕ) : Pointer :=
  (s.head :: tower s.heap i before).getLast (List.cons_ne_nil _ _)

theorem lastBefore_mem (s : SkipListStore) (before : List Pointer) (i : ℕ) :
    lastBefore s before i ∈ s.head :: tower s.heap i before :=
  List.getLast_mem _

/-- The tower below the key ends in its last node. -/
theorem exists_front_lastBefore (s : SkipListStore) (before : List Pointer) (i : ℕ) :
    ∃ front, s.head :: tower s.heap i before = front ++ [lastBefore s before i] :=
  ⟨_, (List.dropLast_append_getLast (List.cons_ne_nil _ _)).symm⟩

/-! ### The search on one level -/

/-- Assumes: a chain on level `i` through `curr` in which the nodes `below` after `curr` have keys
below the key and the nodes after them have not. The inner loop stops at the last node of
`below`. -/
theorem advance_eq {front below above : List Pointer} {steps : ℕ}
    (hlinked : Linked (nextAt heap i) (front ++ curr :: (below ++ above)))
    (hheight : ∀ p ∈ curr :: below, i < height heap p)
    (hbelow : ∀ p ∈ below, (heap.cell p).key < key)
    (habove : ∀ p ∈ above, key ≤ (heap.cell p).key) (hsteps : below.length < steps) :
    advance heap key i steps curr = .ok ((curr :: below).getLast (List.cons_ne_nil _ _)) := by
  obtain ⟨steps, rfl⟩ := Nat.exists_eq_succ_of_ne_zero (Nat.ne_of_gt (Nat.zero_lt_of_lt hsteps))
  have hindex := index_next (hheight curr List.mem_cons_self)
  induction below generalizing curr front steps with
  | nil =>
    have hnext := hlinked.next_eq
    rw [List.nil_append] at hnext
    rw [hnext] at hindex
    cases above with
    | nil => simp [advance, hindex, bind, Except.bind, pure, Except.pure]
    | cons n above =>
      have hstop := not_lt.mpr (habove n List.mem_cons_self)
      simp [advance, hindex, bind, Except.bind, pure, Except.pure, hstop]
  | cons n below ih =>
    have hnext := hlinked.next_eq
    rw [List.cons_append, List.head?_cons] at hnext
    rw [hnext] at hindex
    have hgo := hbelow n List.mem_cons_self
    obtain ⟨steps, rfl⟩ := Nat.exists_eq_succ_of_ne_zero
      (Nat.ne_of_gt (Nat.zero_lt_of_lt (Nat.lt_of_succ_lt_succ hsteps)))
    have hshift : Linked (nextAt heap i) ((front ++ [curr]) ++ n :: (below ++ above)) := by
      simpa using hlinked
    have hrest := ih hshift (fun p hp ↦ hheight p (List.mem_cons_of_mem curr hp))
      (fun p hp ↦ hbelow p (List.mem_cons_of_mem n hp)) steps (Nat.lt_of_succ_lt_succ hsteps)
      (index_next (hheight n (by simp)))
    rw [List.getLast_cons (List.cons_ne_nil n below), ← hrest]
    rw [advance]
    simp only [hindex, bind, Except.bind, if_pos hgo]

/-! ### The place of a key -/

/-- A key splits the base into the nodes below it, its own node if there is one, and the nodes
above it. -/
structure Site (heap : Memory SkipNode) (key : GoString) (before old after : List Pointer) :
    Prop where
  before_lt : ∀ p ∈ before, (heap.cell p).key < key
  old_eq : ∀ p ∈ old, (heap.cell p).key = key
  lt_after : ∀ p ∈ after, key < (heap.cell p).key

theorem Chains.exists_site (hs : Chains s base) (key : GoString) :
    ∃ before old after, base = before ++ (old ++ after) ∧ Site s.heap key before old after ∧
      (old = [] ∨ ∃ n, old = [n]) := by
  obtain ⟨before, rest, hsplit, hbefore, hrest⟩ :=
    exists_split_of_pairwise (p := fun q ↦ decide (key ≤ (s.heap.cell q).key))
      (hs.sorted.imp fun {a b} hab ha ↦ decide_eq_true ((of_decide_eq_true ha).trans hab.le))
  have hlt : ∀ p ∈ before, (s.heap.cell p).key < key := fun p hp ↦
    not_le.mp (of_decide_eq_false (hbefore p hp))
  have hge : ∀ p ∈ rest, key ≤ (s.heap.cell p).key := fun p hp ↦ of_decide_eq_true (hrest p hp)
  cases rest with
  | nil => exact ⟨before, [], [], hsplit, ⟨hlt, by simp, by simp⟩, Or.inl rfl⟩
  | cons n after =>
    have hsorted := hs.sorted
    rw [hsplit] at hsorted
    have hafter := (List.pairwise_cons.mp (List.pairwise_append.mp hsorted).2.1).1
    by_cases hn : (s.heap.cell n).key = key
    · refine ⟨before, [n], after, hsplit, ⟨hlt, by simpa using hn, fun p hp ↦ ?_⟩,
        Or.inr ⟨n, rfl⟩⟩
      rw [← hn]
      exact hafter p hp
    · have hlast := lt_of_le_of_ne (hge n List.mem_cons_self) (Ne.symm hn)
      refine ⟨before, [], n :: after, hsplit, ⟨hlt, by simp, fun p hp ↦ ?_⟩, Or.inl rfl⟩
      rcases List.mem_cons.mp hp with rfl | hp
      · exact hlast
      · exact hlast.trans (hafter p hp)

section Search

variable (hs : Chains s (before ++ (old ++ after))) (hsite : Site s.heap key before old after)

include hs

theorem Chains.lt_height (hi : i < skipMaxLevel) (hp : p ∈ s.head :: tower s.heap i before) :
    i < height s.heap p := by
  rcases List.mem_cons.mp hp with rfl | hp
  · rw [hs.head_height]
    exact hi
  · exact (mem_tower.mp hp).2

/-- On level 0 the last node below a key is followed by the node of the key and those above it. -/
theorem Chains.linked_lastBefore :
    Linked (nextAt s.heap 0) (lastBefore s before 0 :: (old ++ after)) := by
  have hlinked := hs.linked 0 (by decide)
  obtain ⟨front, hfront⟩ := exists_front_lastBefore s before 0
  have hall : tower s.heap 0 (old ++ after) = old ++ after := by
    refine List.filter_eq_self.mpr fun p hp ↦ decide_eq_true ?_
    exact hs.height_pos p (List.mem_append_right before hp)
  rw [tower_append, ← List.cons_append, hfront, List.append_assoc, List.singleton_append,
    hall] at hlinked
  exact hlinked.suffix front

theorem Chains.index_lastBefore :
    index (s.heap.cell (lastBefore s before 0)).next 0 = .ok (old ++ after).head? := by
  have hnext : nextAt s.heap 0 (lastBefore s before 0) = (old ++ after).head? :=
    Linked.next_eq (show Linked _ ([] ++ lastBefore s before 0 :: (old ++ after)) from
      hs.linked_lastBefore)
  rw [index_next (hs.lt_height (by decide) (lastBefore_mem s before 0)), hnext]

include hsite

/-- From every node of the tower below the key the inner loop stops at its last node. -/
theorem Chains.advance_eq (hi : i < skipMaxLevel) (hcurr : curr ∈ s.head :: tower s.heap i before) :
    advance s.heap key i s.heap.used curr = .ok (lastBefore s before i) := by
  obtain ⟨front, below, hsplit⟩ := List.append_of_mem hcurr
  have hchain : s.head :: tower s.heap i (before ++ (old ++ after)) =
      front ++ curr :: (below ++ tower s.heap i (old ++ after)) := by
    rw [tower_append, ← List.cons_append, hsplit, List.append_assoc, List.cons_append]
  have hsub : ∀ p ∈ curr :: below, p ∈ s.head :: tower s.heap i before := by
    intro p hp
    rw [hsplit]
    exact List.mem_append_right front hp
  have hbelow : ∀ p ∈ below, p ∈ before := by
    intro p hp
    have hmem := congrArg List.tail hsplit
    cases front with
    | nil =>
      rw [List.tail_cons, List.nil_append, List.tail_cons] at hmem
      rw [← hmem] at hp
      exact (mem_tower.mp hp).1
    | cons q front =>
      rw [List.tail_cons, List.cons_append, List.tail_cons] at hmem
      have hpmem : p ∈ tower s.heap i before := by
        rw [hmem]
        simp [hp]
      exact (mem_tower.mp hpmem).1
  have hlinked := hs.linked i hi
  rw [hchain] at hlinked
  have hlast : lastBefore s before i = (curr :: below).getLast (List.cons_ne_nil _ _) := by
    simp only [lastBefore, hsplit]
    exact List.getLast_append_of_ne_nil _ _
  rw [hlast]
  refine SkipListChains.advance_eq hlinked (fun p hp ↦ hs.lt_height hi (hsub p hp))
    (fun p hp ↦ hsite.before_lt p (hbelow p hp)) (fun p hp ↦ ?_) ?_
  · rcases List.mem_append.mp (mem_tower.mp hp).1 with hp | hp
    · exact (hsite.old_eq p hp).ge
    · exact (hsite.lt_after p hp).le
  · have hnodup : (s.head :: tower s.heap i before).Nodup := by
      refine hs.nodup.sublist (List.Sublist.cons_cons _ ?_)
      exact (List.filter_sublist).trans (List.sublist_append_left _ _)
    rw [hsplit] at hnodup
    have hused : ∀ p ∈ curr :: below, p < s.heap.used := by
      intro p hp
      refine hs.lt_used p ?_
      rcases List.mem_cons.mp (hsub p hp) with rfl | hp
      · exact List.mem_cons_self
      · exact List.mem_cons_of_mem _ (List.mem_append_left _ (mem_tower.mp hp).1)
    exact length_le_of_nodup (List.nodup_append.mp hnodup).2.1 hused

/-- The search of `Get` ends at the last node below the key on level 0. -/
theorem Chains.seek_eq (hi : i < skipMaxLevel) (hcurr : curr ∈ s.head :: tower s.heap i before) :
    seek s.heap key (i + 1) curr = .ok (lastBefore s before 0) := by
  induction i generalizing curr with
  | zero =>
    rw [seek, hs.advance_eq hsite hi hcurr]
    rfl
  | succ i ih =>
    rw [seek, hs.advance_eq hsite hi hcurr]
    exact ih (Nat.lt_of_succ_lt hi) (mem_tower_of_succ (lastBefore_mem s before (i + 1)))

/-- The search of `Set` and `Del` ends at the same node and notes the last node below the key on
every level it has passed. -/
theorem Chains.findPrev_eq {prev : List (Option Pointer)} (hprev : prev.length = skipMaxLevel)
    (hi : i < skipMaxLevel) (hcurr : curr ∈ s.head :: tower s.heap i before) :
    ∃ prev', findPrev s.heap key (i + 1) curr prev = .ok (lastBefore s before 0, prev') ∧
      prev'.length = skipMaxLevel ∧
      (∀ j ≤ i, prev'[j]? = some (some (lastBefore s before j))) ∧
      ∀ j, i < j → prev'[j]? = prev[j]? := by
  induction i generalizing curr prev with
  | zero =>
    refine ⟨prev.set 0 (some (lastBefore s before 0)), ?_, by rw [List.length_set, hprev], ?_, ?_⟩
    · rw [findPrev, hs.advance_eq hsite hi hcurr]
      simp only [bind, Except.bind, setIndex, hprev, if_pos hi, findPrev]
      rfl
    · intro j hj
      rw [Nat.le_zero.mp hj]
      exact List.getElem?_set_self (by rw [hprev]; exact hi)
    · intro j hj
      exact List.getElem?_set_ne (Nat.ne_of_lt hj)
  | succ i ih =>
    have hset : (prev.set (i + 1) (some (lastBefore s before (i + 1)))).length = skipMaxLevel := by
      rw [List.length_set, hprev]
    obtain ⟨prev', hfind, hlength, hbelow, habove⟩ := ih hset (Nat.lt_of_succ_lt hi)
      (mem_tower_of_succ (lastBefore_mem s before (i + 1)))
    refine ⟨prev', ?_, hlength, fun j hj ↦ ?_, fun j hj ↦ ?_⟩
    · rw [findPrev, hs.advance_eq hsite hi hcurr]
      simp only [bind, Except.bind, setIndex, hprev, if_pos hi]
      exact hfind
    · rcases Nat.lt_or_eq_of_le hj with hj | rfl
      · exact hbelow j (Nat.le_of_lt_succ hj)
      · rw [habove (i + 1) (Nat.lt_succ_self i)]
        exact List.getElem?_set_self (by rw [hprev]; exact hi)
    · rw [habove j (Nat.lt_of_succ_lt hj)]
      exact List.getElem?_set_ne (Nat.ne_of_lt hj)

/-- The searches of a call start at the head on the highest level in use. -/
theorem Chains.seek_top : seek s.heap key s.level s.head = .ok (lastBefore s before 0) := by
  obtain ⟨i, hi⟩ := Nat.exists_eq_succ_of_ne_zero (Nat.ne_of_gt hs.level_pos)
  rw [hi]
  exact hs.seek_eq hsite (Nat.lt_of_lt_of_le (hi ▸ Nat.lt_succ_self i) hs.level_le)
    List.mem_cons_self

theorem Chains.findPrev_top :
    ∃ prev, findPrev s.heap key s.level s.head (List.replicate skipMaxLevel none) =
        .ok (lastBefore s before 0, prev) ∧ prev.length = skipMaxLevel ∧
      ∀ j < s.level, prev[j]? = some (some (lastBefore s before j)) := by
  obtain ⟨i, hi⟩ := Nat.exists_eq_succ_of_ne_zero (Nat.ne_of_gt hs.level_pos)
  rw [hi]
  obtain ⟨prev, hfind, hlength, hbelow, -⟩ := hs.findPrev_eq hsite List.length_replicate
    (Nat.lt_of_lt_of_le (hi ▸ Nat.lt_succ_self i) hs.level_le) List.mem_cons_self
  exact ⟨prev, hfind, hlength, fun j hj ↦ hbelow j (Nat.le_of_lt_succ hj)⟩

/-- The node after the last one below the key is the node of the key when there is one. -/
theorem Chains.nodeWithKey_eq (hold : old = [] ∨ ∃ n, old = [n]) :
    nodeWithKey s.heap key (lastBefore s before 0) = .ok old.head? := by
  simp only [nodeWithKey, hs.index_lastBefore, bind, Except.bind, pure, Except.pure]
  rcases hold with rfl | ⟨n, rfl⟩
  · cases after with
    | nil => rfl
    | cons p after =>
      have hne : (s.heap.cell p).key ≠ key := (hsite.lt_after p List.mem_cons_self).ne'
      simp [hne]
  · simp [hsite.old_eq n List.mem_cons_self]

end Search

end FluxCache.Store.SkipListChains
