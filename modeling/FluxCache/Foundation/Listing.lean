import FluxCache.Foundation.Memory
import Mathlib.Data.List.Sort

/-!
# Sorted listings and scans with an early exit

`Lists p l` says that the list `l` holds exactly the elements with the property `p`, in strictly
increasing order. So there is at most one such list (`Lists.unique`), and listings of parts that
follow one another make a listing of the whole (`lists_flatMap`).

A query over sorted keys goes through them from the first one that can match and keeps those that
do. It returns at a key after which no other can match. `scan keep stop` is that loop over one
slice, and `collectFrom` the loop over a chain of nodes. Over a chain of slices the two loops make
one scan of the slices put together (`collectFrom_eq`). The early exit loses nothing when no key
after the exit is kept: the scan is then a filter (`scan_eq_filter`).

`Scans q start keep stop` says that a scan of sorted keys from `start` on answers the query `q`: it
keeps exactly the keys with the property `q`, there is none below `start`, and there is none after
an exit (`Scans.lists`). The query for an interval is of that kind (`scans_range`). So is the one
for a prefix (`scans_isPrefix`), since the strings that start with a given one lie next to each
other in the lexicographic order (`isPrefix_of_between`).
-/

set_option autoImplicit false
set_option relaxedAutoImplicit false

namespace FluxCache.Foundation

/-! ### Listings -/

section Lists

variable {α : Type} [LinearOrder α] {p q : α → Prop} {l l' : List α}

/-- The list holds exactly the elements with a property, in strictly increasing order. -/
structure Lists (p : α → Prop) (l : List α) : Prop where
  increasing : l.Pairwise (· < ·)
  mem_iff : ∀ a, a ∈ l ↔ p a

theorem Lists.unique (h : Lists p l) (h' : Lists p l') : l = l' :=
  h.increasing.eq_of_mem_iff h'.increasing fun a ↦ (h.mem_iff a).trans (h'.mem_iff a).symm

theorem Lists.congr (h : Lists p l) (hpq : ∀ a, p a ↔ q a) : Lists q l :=
  ⟨h.increasing, fun a ↦ (h.mem_iff a).trans (hpq a)⟩

theorem lists_nil (h : ∀ a, ¬p a) : Lists p [] :=
  ⟨List.Pairwise.nil, fun a ↦ iff_of_false List.not_mem_nil (h a)⟩

theorem Lists.filter (h : Lists p l) {keep : α → Bool} (hkeep : ∀ a, keep a = true ↔ q a) :
    Lists (fun a ↦ p a ∧ q a) (l.filter keep) := by
  refine ⟨h.increasing.sublist List.filter_sublist, fun a ↦ ?_⟩
  rw [List.mem_filter, h.mem_iff, hkeep]

/-- Assumes: listings of parts that follow one another in the order. Put together they list what any
of the parts has. -/
theorem lists_flatMap {ι : Type} {rows : List ι} {f : ι → List α} {part : ι → α → Prop}
    (hrows : ∀ x ∈ rows, Lists (part x) (f x))
    (hcross : rows.Pairwise fun x y ↦ ∀ a b, part x a → part y b → a < b) :
    Lists (fun a ↦ ∃ x ∈ rows, part x a) (rows.flatMap f) := by
  refine ⟨List.pairwise_flatMap.mpr ⟨fun x hx ↦ (hrows x hx).increasing, ?_⟩, fun a ↦ ?_⟩
  · refine hcross.imp_of_mem fun {x y} hx hy hxy a ha b hb ↦ ?_
    exact hxy a b (((hrows x hx).mem_iff a).mp ha) (((hrows y hy).mem_iff b).mp hb)
  · rw [List.mem_flatMap]
    exact exists_congr fun x ↦ and_congr_right fun hx ↦ (hrows x hx).mem_iff a

end Lists

/-! ### Scans -/

section Scan

variable {α β : Type} {keep stop : β → Bool}

/-- The elements a loop keeps, and whether it has come to the end of the slice. -/
def scan (keep stop : β → Bool) : List β → List β × Bool
  | [] => ([], true)
  | b :: rest =>
    if keep b then (b :: (scan keep stop rest).1, (scan keep stop rest).2)
    else if stop b then ([], false)
    else scan keep stop rest

/-- A scan of two slices goes on to the second one if it has come to the end of the first one. -/
theorem scan_append (left right : List β) :
    (scan keep stop (left ++ right)).1 = (scan keep stop left).1 ++
      if (scan keep stop left).2 then (scan keep stop right).1 else [] := by
  induction left with
  | nil => rfl
  | cons b left ih =>
    rw [List.cons_append, scan, scan]
    by_cases hkeep : keep b = true
    · rw [if_pos hkeep, if_pos hkeep, List.cons_append, ih]
    · by_cases hstop : stop b = true
      · rw [if_neg hkeep, if_pos hstop, if_neg hkeep, if_pos hstop]
        rfl
      · rw [if_neg hkeep, if_neg hstop, if_neg hkeep, if_neg hstop, ih]

/-- Assumes: after an element at which the scan stops none is kept. -/
theorem scan_eq_filter {l : List β}
    (hstop : l.Pairwise fun b c ↦ keep b = false → stop b = true → keep c = false) :
    (scan keep stop l).1 = l.filter keep := by
  induction l with
  | nil => rfl
  | cons b l ih =>
    obtain ⟨hfirst, hrest⟩ := List.pairwise_cons.mp hstop
    rw [scan, List.filter_cons]
    by_cases hkeep : keep b = true
    · rw [if_pos hkeep, if_pos hkeep, ih hrest]
    · rw [if_neg hkeep, if_neg hkeep]
      by_cases hexit : stop b = true
      · rw [if_pos hexit, eq_comm, List.filter_eq_nil_iff]
        intro c hc
        rw [hfirst c hc (Bool.eq_false_of_not_eq_true hkeep) hexit]
        exact Bool.false_ne_true
      · rw [if_neg hexit, ih hrest]

/-- The loop over a chain of nodes: what each node adds, up to the one at which it returns. -/
def collectFrom (next : α → Outcome (Option α)) (visit : α → List β × Bool) :
    ℕ → Option α → Outcome (List β)
  | _, none => .ok []
  | 0, some _ => .error .exhausted
  | steps + 1, some p =>
    if (visit p).2 then do
      let after ← next p
      let rest ← collectFrom next visit steps after
      pure ((visit p).1 ++ rest)
    else .ok (visit p).1

/-- Assumes: a chain of nodes whose successors can be read, and a visit of a node that scans a
slice of it. The loop scans the slices one after another. -/
theorem collectFrom_eq {next : α → Outcome (Option α)} {link : α → Option α}
    {visit : α → List β × Bool} {slice : α → List β} {steps : ℕ} {chain : List α}
    (hlinked : Linked link chain) (hnext : ∀ p ∈ chain, next p = .ok (link p))
    (hvisit : ∀ p ∈ chain, visit p = scan keep stop (slice p)) (hlength : chain.length ≤ steps) :
    collectFrom next visit steps chain.head? =
      .ok (scan keep stop (chain.flatMap slice)).1 := by
  induction chain generalizing steps with
  | nil =>
    rw [List.head?_nil]
    cases steps with
    | zero => rfl
    | succ steps => rfl
  | cons p rest ih =>
    obtain ⟨steps, rfl⟩ := Nat.exists_eq_succ_of_ne_zero
      (Nat.ne_of_gt (Nat.lt_of_lt_of_le (Nat.zero_lt_succ _) hlength))
    have hlink : link p = rest.head? :=
      Linked.next_eq (show Linked link ([] ++ p :: rest) from hlinked)
    have hrest := ih hlinked.tail (fun q hq ↦ hnext q (List.mem_cons_of_mem p hq))
      (fun q hq ↦ hvisit q (List.mem_cons_of_mem p hq)) (Nat.le_of_succ_le_succ hlength)
    rw [List.head?_cons, collectFrom, hvisit p List.mem_cons_self, List.flatMap_cons, scan_append]
    by_cases hend : (scan keep stop (slice p)).2 = true
    · rw [if_pos hend, if_pos hend, hnext p List.mem_cons_self, hlink]
      show (collectFrom next visit steps rest.head? >>= _) = _
      rw [hrest]
      rfl
    · rw [if_neg hend, if_neg hend, List.append_nil]

end Scan

/-! ### Queries by a scan -/

section Scans

variable {α : Type} [LinearOrder α] {p q : α → Prop} {start : α} {keep stop : α → Bool}
  {front back : List α}

/-- A scan of sorted keys from `start` on that answers a query. -/
structure Scans (q : α → Prop) (start : α) (keep stop : α → Bool) : Prop where
  keep_iff : ∀ a, keep a = true ↔ q a
  start_le : ∀ a, q a → start ≤ a
  done : ∀ a b, a < b → stop a = true → ¬q a → ¬q b

/-- Assumes: sorted keys of which those in the front part lie below the start of the scan. The scan
of the back part lists the keys that answer the query. -/
theorem Scans.lists (h : Scans q start keep stop) (hkeys : Lists p (front ++ back))
    (hfront : ∀ a ∈ front, a < start) :
    Lists (fun a ↦ p a ∧ q a) (scan keep stop back).1 := by
  have hnone : front.filter keep = [] := by
    refine List.filter_eq_nil_iff.mpr fun a ha hkeep ↦ ?_
    exact absurd (hfront a ha) (not_lt.mpr (h.start_le a ((h.keep_iff a).mp hkeep)))
  have hexit : (scan keep stop back).1 = back.filter keep := by
    refine scan_eq_filter ((List.pairwise_append.mp hkeys.increasing).2.1.imp ?_)
    intro a b hab hkeep hstop
    rw [Bool.eq_false_iff, ne_eq, h.keep_iff] at hkeep ⊢
    exact h.done a b hab hstop hkeep
  have hlists := hkeys.filter h.keep_iff
  rw [List.filter_append, hnone, List.nil_append] at hlists
  rwa [hexit]

/-- The keys of an interval, by a scan that stops above it. -/
theorem scans_range [DecidableLT α] (low high : α) :
    Scans (fun a ↦ low ≤ a ∧ a ≤ high) low (fun a ↦ low ≤ a ∧ a ≤ high) (fun a ↦ high < a) where
  keep_iff _ := decide_eq_true_iff
  start_le _ ha := ha.1
  done _ _ hab hstop _ hb :=
    absurd ((of_decide_eq_true hstop).trans hab) (not_lt.mpr hb.2)

end Scans

/-! ### Prefixes in the lexicographic order -/

section Prefixes

variable {α : Type} [LinearOrder α] {start x y : List α}

theorem le_of_isPrefix (h : start <+: x) : start ≤ x :=
  not_lt.mp (show ¬x < start from h.le)

/-- What lies between a string and one of its extensions is an extension of it. -/
theorem isPrefix_of_between (hx : start ≤ x) (hxy : x ≤ y) (hy : start <+: y) : start <+: x := by
  induction start generalizing x y with
  | nil => exact List.nil_prefix
  | cons a start ih =>
    obtain ⟨rest, rfl⟩ := hy
    cases x with
    | nil =>
      have hbelow : ([] : List α) < a :: start := List.nil_lt_cons _ _
      exact absurd hbelow (not_lt.mpr hx)
    | cons b x =>
      have hab : a = b := by
        rcases lt_trichotomy a b with hlt | hsame | hgt
        · have habove : a :: (start ++ rest) < b :: x := List.cons_lt_cons_iff.mpr (Or.inl hlt)
          exact absurd habove (not_lt.mpr hxy)
        · exact hsame
        · have hbelow : b :: x < a :: start := List.cons_lt_cons_iff.mpr (Or.inl hgt)
          exact absurd hbelow (not_lt.mpr hx)
      subst hab
      have hcons : ∀ {u w : List α}, a :: u ≤ a :: w → u ≤ w := fun {u w} h ↦
        not_lt.mp fun hlt ↦ not_lt.mpr h (List.cons_lt_cons_iff.mpr (Or.inr ⟨rfl, hlt⟩))
      exact List.cons_prefix_cons.mpr ⟨rfl, ih (hcons hx) (hcons hxy) (List.prefix_append _ _)⟩

/-- The keys with a prefix, by a scan that stops at a key above the prefix that does not have
it. -/
theorem scans_isPrefix (start : List α) :
    Scans (fun x ↦ start <+: x) start (fun x ↦ start.isPrefixOf x)
      (fun x ↦ start < x ∧ ¬start.isPrefixOf x) where
  keep_iff _ := List.isPrefixOf_iff_prefix
  start_le _ hx := le_of_isPrefix hx
  done _ _ hxy hstop hx hy :=
    hx (isPrefix_of_between (of_decide_eq_true hstop).1.le hxy.le hy)

end Prefixes

end FluxCache.Foundation
